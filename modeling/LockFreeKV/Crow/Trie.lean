import LockFreeKV.Lib.Bytes
import LockFreeKV.Lib.Pattern
import Mathlib.Algebra.Group.Int.Defs
import Mathlib.Algebra.Group.Nat.Defs

/-!
# The routing trie

`Trie::add` turns a rule into a path of nodes, one for each character or parameter;
`optimize` joins nodes that have a single child; `find` walks the tree along a URL and
keeps the least rule number among all paths that match. `strtod` is a parameter: how many
characters it reads, none when it reads nothing or reports a range error. Blueprints are
left out, since no blueprint is registered here.
-/
namespace LockFreeKV.Crow

open LockFreeKV.Lib

/-- `ParamType`, without `MAX`, which stands for no parameter. -/
inductive ParamType
  | int
  | uint
  | double
  | string
  | path
  deriving DecidableEq, Repr

/-- What a parameter has read; a floating point number by its text. -/
inductive ParamValue
  | int (value : Int)
  | uint (value : Nat)
  | double (text : Bytes)
  | string (text : Bytes)
  deriving DecidableEq, Repr

structure RoutingParams where
  intParams : List Int
  uintParams : List Nat
  doubleParams : List Bytes
  stringParams : List Bytes
  deriving DecidableEq, Repr

namespace RoutingParams

def empty : RoutingParams := ⟨[], [], [], []⟩

/-- `push_back` on the vector of the value's type. -/
def push (params : RoutingParams) : ParamValue → RoutingParams
  | .int value => { params with intParams := params.intParams ++ [value] }
  | .uint value => { params with uintParams := params.uintParams ++ [value] }
  | .double text => { params with doubleParams := params.doubleParams ++ [text] }
  | .string text => { params with stringParams := params.stringParams ++ [text] }

def pushAll (params : RoutingParams) (values : List ParamValue) : RoutingParams :=
  values.foldl push params

@[simp] theorem pushAll_nil (params : RoutingParams) : params.pushAll [] = params := rfl

@[simp] theorem pushAll_cons (params : RoutingParams) (value : ParamValue)
    (values : List ParamValue) :
    params.pushAll (value :: values) = (params.push value).pushAll values := rfl

end RoutingParams

/-! ## What the parameters read -/

def isDigit (c : UInt8) : Bool := '0'.toUInt8 ≤ c && c ≤ '9'.toUInt8

def digitValue (digits : Bytes) : Nat := digits.foldl (fun n c => n * 10 + (c.toNat - 48)) 0

/-- The digits at the front, and what is behind them. -/
def strtoDigits (s : Bytes) : Option (Nat × Bytes) :=
  match s.takeWhile isDigit with
  | [] => none
  | digits => some (digitValue digits, s.dropWhile isDigit)

/-- A sign at the front, `true` for a minus, and what is behind it. -/
def takeSign : Bytes → Bool × Bytes
  | c :: rest =>
    if c = '-'.toUInt8 then (true, rest) else if c = '+'.toUInt8 then (false, rest)
    else (false, c :: rest)
  | [] => (false, [])

/-- `strtoll(…, 10)`: nothing when it reads nothing or the number is out of range. -/
def strtoll (s : Bytes) : Option (Int × Bytes) :=
  (strtoDigits (takeSign s).2).bind fun r =>
    let value : Int := if (takeSign s).1 then -(r.1 : Int) else r.1
    if -(2 ^ 63 : Int) ≤ value ∧ value < 2 ^ 63 then some (value, r.2) else none

/-- `strtoull(…, 10)` of a text that does not start with a minus. -/
def strtoull (s : Bytes) : Option (Nat × Bytes) :=
  (strtoDigits (takeSign s).2).bind fun r => if r.1 < 2 ^ 64 then some r else none

/-- The number of characters that `strtod` reads. -/
structure Strtod where
  reads : Bytes → Option Nat
  bounded : ∀ s n, reads s = some n → 0 < n ∧ n ≤ s.length

/-- The branches of `find` for a child with a parameter: its value and the rest of the URL. -/
def readParam (strtod : Strtod) (p : ParamType) (url : Bytes) : Option (ParamValue × Bytes) :=
  match url with
  | [] => none
  | c :: _ =>
    match p with
    | .int =>
      if isDigit c || c = '+'.toUInt8 || c = '-'.toUInt8 then
        (strtoll url).map fun r => (.int r.1, r.2)
      else none
    | .uint =>
      if isDigit c || c = '+'.toUInt8 then (strtoull url).map fun r => (.uint r.1, r.2) else none
    | .double =>
      if isDigit c || c = '+'.toUInt8 || c = '-'.toUInt8 || c = '.'.toUInt8 then
        (strtod.reads url).map fun n => (.double (url.take n), url.drop n)
      else none
    | .string =>
      match url.takeWhile (· ≠ '/'.toUInt8) with
      | [] => none
      | text => some (.string text, url.dropWhile (· ≠ '/'.toUInt8))
    | .path => some (.string url, [])

/-! ## Nodes -/

/-- `Trie::Node`. -/
inductive Node
  | node (ruleIndex : Nat) (key : Bytes) (param : Option ParamType) (children : List Node)

abbrev Tok := Token UInt8 ParamType

namespace Node

def ruleIndex : Node → Nat
  | .node i _ _ _ => i

def key : Node → Bytes
  | .node _ k _ _ => k

def param : Node → Option ParamType
  | .node _ _ p _ => p

def children : Node → List Node
  | .node _ _ _ cs => cs

@[simp] theorem ruleIndex_node (i : Nat) (k : Bytes) (p : Option ParamType) (cs : List Node) :
    (node i k p cs).ruleIndex = i := rfl

@[simp] theorem key_node (i : Nat) (k : Bytes) (p : Option ParamType) (cs : List Node) :
    (node i k p cs).key = k := rfl

@[simp] theorem param_node (i : Nat) (k : Bytes) (p : Option ParamType) (cs : List Node) :
    (node i k p cs).param = p := rfl

@[simp] theorem children_node (i : Nat) (k : Bytes) (p : Option ParamType) (cs : List Node) :
    (node i k p cs).children = cs := rfl

/-- The head of an empty trie. -/
def empty : Node := .node 0 [] none []

/-- `IsSimpleNode`. -/
def isSimpleNode (node : Node) : Bool :=
  node.ruleIndex == 0 && node.children.length < 2 && node.param.isNone &&
    node.children.all fun child => child.param.isNone

/-- What a node reads in front of its children. -/
def label (node : Node) : List Tok :=
  match node.param with
  | some p => [.param p]
  | none => node.key.map .lit

section Find

variable (strtod : Strtod)

mutual
/-- `find`, with what is left of the URL for the position in it. -/
def find : Node → Bytes → RoutingParams → Nat × RoutingParams
  | .node ruleIndex _ _ children, url, params =>
    match url with
    | [] => (ruleIndex, params)
    | _ :: _ => findAmong children url params (0, .empty)

/-- The loop of `find` over the children. -/
def findAmong : List Node → Bytes → RoutingParams → Nat × RoutingParams → Nat × RoutingParams
  | [], _, _, found => found
  | child :: children, url, params, found =>
    let found := match child.param with
      | some p =>
        match readParam strtod p url with
        | none => found
        | some (value, rest) => keepLeast found (child.find rest (params.push value))
      | none =>
        if child.key.isPrefixOf url then
          keepLeast found (child.find (url.drop child.key.length) params)
        else found
    findAmong children url params found
end

end Find

/-! ## Adding a rule -/

/-- `paramTraits`. -/
def paramTraits : List (ParamType × Bytes) :=
  [(.int, ofString "<int>"), (.uint, ofString "<uint>"), (.double, ofString "<float>"),
    (.double, ofString "<double>"), (.string, ofString "<str>"), (.string, ofString "<string>"),
    (.path, ofString "<path>")]

/-- The pieces that `add` makes of a rule, `skip` more characters belonging to the last one.
At a `<` without a known name the loop of `add` does not end. -/
def tokens : Nat → Bytes → Option (List Tok)
  | _, [] => some []
  | skip + 1, _ :: rest => tokens skip rest
  | 0, c :: rest =>
    if c = '<'.toUInt8 then
      match paramTraits.find? fun x => x.2.isPrefixOf (c :: rest) with
      | none => none
      | some x => (tokens (x.2.length - 1) rest).map (.param x.1 :: ·)
    else (tokens 0 rest).map (.lit c :: ·)

/-- The tests of `add` whether a child continues with a piece. Behind the end of an empty key
stands a NUL. -/
def startsWith (tok : Tok) (node : Node) : Bool :=
  match tok with
  | .param p => node.param == some p
  | .lit c => node.key.headD 0 == c

/-- `new_node`, with its key or parameter. -/
def newNode : Tok → Node
  | .param p => .node 0 [] (some p) []
  | .lit c => .node 0 [c] none []

end Node

/-- How setting up the routes can fail. -/
inductive RouterError
  | handlerExists
  | headNotSimple
  | addDoesNotEnd
  deriving DecidableEq, Repr

/-- Do something to the first element with a property, or to a new last one. -/
def updateFirst {α ε : Type} (p : α → Bool) (f : α → Except ε α) (new : α) :
    List α → Except ε (List α)
  | [] => do return [← f new]
  | x :: xs => if p x then do return (← f x) :: xs else do return x :: (← updateFirst p f new xs)

namespace Node

/-- `add` from a node on. -/
def insert (ruleIndex : Nat) : List Tok → Node → Except RouterError Node
  | [], .node i key param children =>
    if i ≠ 0 then .error .handlerExists else .ok (.node ruleIndex key param children)
  | tok :: toks, .node i key param children => do
    return .node i key param
      (← updateFirst (startsWith tok) (insert ruleIndex toks) (newNode tok) children)

/-- `add`. -/
def add (head : Node) (url : Bytes) (ruleIndex : Nat) : Except RouterError Node :=
  match tokens 0 url with
  | none => .error .addDoesNotEnd
  | some toks => head.insert ruleIndex toks

/-! ## Joining nodes -/

mutual
/-- `optimizeNode`, with the key that the nodes joined so far have gathered. -/
def optimizeNode : Bytes → Node → Node
  | gathered, .node i key param [] => .node i (gathered ++ key) param []
  | gathered, .node i key param [child] =>
    if isSimpleNode (.node i key param [child]) then optimizeNode (gathered ++ key) child
    else .node i (gathered ++ key) param [optimizeNode [] child]
  | gathered, .node i key param (c :: c' :: cs) =>
    .node i (gathered ++ key) param (optimizeNode [] c :: optimizeNode [] c' :: optimizeAll cs)

def optimizeAll : List Node → List Node
  | [] => []
  | c :: cs => optimizeNode [] c :: optimizeAll cs
end

/-- `validate`. -/
def validate (head : Node) : Except RouterError Node :=
  if head.isSimpleNode then
    .ok (.node head.ruleIndex head.key head.param (optimizeAll head.children))
  else .error .headNotSimple

end Node

end LockFreeKV.Crow
