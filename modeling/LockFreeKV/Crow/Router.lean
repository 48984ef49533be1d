import LockFreeKV.Lib.Cells
import LockFreeKV.Crow.TrieRules

/-!
# The router

Every method has a list of rules and a trie of its own. `validate` goes through the rules
in the order of their registration, numbers them from 2 on, and adds a rule that ends with
a slash a second time without it, under the number of the redirection. `handle` looks a URL
up and decides what becomes of the request. No catch-all rule and no blueprint is
registered here, and every rule has a handler.
-/
namespace LockFreeKV.Crow

open LockFreeKV.Lib

/-- `HTTPMethod`, in the order of its numbers. -/
inductive HTTPMethod
  | delete
  | get
  | head
  | post
  | put
  | connect
  | options
  | trace
  | patch
  | purge
  | copy
  | lock
  | mkcol
  | move
  | propfind
  | proppatch
  | search
  | unlock
  | bind
  | rebind
  | unbind
  | acl
  | report
  | mkactivity
  | checkout
  | merge
  | msearch
  | notify
  | subscribe
  | unsubscribe
  | mkcalendar
  | link
  | unlink
  | source
  deriving DecidableEq, Repr

namespace HTTPMethod

def all : List HTTPMethod :=
  [.delete, .get, .head, .post, .put, .connect, .options, .trace, .patch, .purge, .copy, .lock,
    .mkcol, .move, .propfind, .proppatch, .search, .unlock, .bind, .rebind, .unbind, .acl, .report,
    .mkactivity, .checkout, .merge, .msearch, .notify, .subscribe, .unsubscribe, .mkcalendar, .link,
    .unlink, .source]

/-- `method_strings`. -/
def methodStrings : List String :=
  ["DELETE", "GET", "HEAD", "POST", "PUT", "CONNECT", "OPTIONS", "TRACE", "PATCH", "PURGE", "COPY",
    "LOCK", "MKCOL", "MOVE", "PROPFIND", "PROPPATCH", "SEARCH", "UNLOCK", "BIND", "REBIND", "UNBIND",
    "ACL", "REPORT", "MKACTIVITY", "CHECKOUT", "MERGE", "M-SEARCH", "NOTIFY", "SUBSCRIBE",
    "UNSUBSCRIBE", "MKCALENDAR", "LINK", "UNLINK", "SOURCE"]

def toNat (m : HTTPMethod) : Nat := m.ctorIdx

/-- `method_name`. -/
def methodName (m : HTTPMethod) : Bytes := ofString (methodStrings.getD m.toNat "invalid")

theorem nodup_all : all.Nodup := by decide

theorem mem_all (m : HTTPMethod) : m ∈ all := by cases m <;> decide

end HTTPMethod

/-- `BaseRule`: its text, the bits of its methods and what handles its requests. -/
structure Rule (H : Type) where
  rule : Bytes
  methods : BitVec 32
  handler : H

namespace Rule

variable {H : Type}

/-- The test of `foreach_method`. The bit has been shifted once for every method before. -/
def hasMethod (r : Rule H) (m : HTTPMethod) : Bool := r.methods &&& (1#32 <<< m.toNat) != 0#32

def hasTrailingSlash (r : Rule H) : Bool :=
  decide (1 < r.rule.length) && r.rule.getLast? == some '/'.toUInt8

end Rule

/-- `PerMethod`. -/
structure PerMethod (H : Type) where
  rules : List (Option (Rule H))
  trie : Node

namespace PerMethod

variable {H : Type}

/-- The numbers 0 and 1 have a special meaning. -/
def new : PerMethod H := ⟨[none, none], .empty⟩

/-- What `internal_add_rule_object` does for one method. The number has 16 bits. -/
def addRule (r : Rule H) (pm : PerMethod H) : Except RouterError (PerMethod H) := do
  let rules := pm.rules ++ [some r]
  let trie ← pm.trie.add r.rule ((rules.length - 1) % 2 ^ 16)
  if r.hasTrailingSlash then
    let trie ← trie.add r.rule.dropLast 1
    return ⟨rules, trie⟩
  else return ⟨rules, trie⟩

def validate (pm : PerMethod H) : Except RouterError (PerMethod H) := do
  let trie ← pm.trie.validate
  return ⟨pm.rules, trie⟩

end PerMethod

section Router

variable {H : Type}

/-- `per_methods_`. -/
abbrev Router (H : Type) := HTTPMethod → PerMethod H

/-- `internal_add_rule_object`. -/
def Router.addRuleObject (router : Router H) (r : Rule H) : Except RouterError (Router H) :=
  updateEach (fun m pm => if r.hasMethod m then pm.addRule r else .ok pm) HTTPMethod.all router

/-- `validate`. -/
def Router.validate (rules : List (Rule H)) : Except RouterError (Router H) := do
  let router ← rules.foldlM Router.addRuleObject fun _ => .new
  updateEach (fun _ pm => pm.validate) HTTPMethod.all router

/-- What becomes of a request. -/
inductive Decision (H : Type)
  | allow (methods : Bytes)
  | notFound
  | methodNotAllowed
  | corrupted
  | redirect
  | nullRule
  | run (rule : Rule H) (params : RoutingParams)

/-- The value of `Allow`, without the last separator. -/
def allowText (ms : List HTTPMethod) : Bytes :=
  let allow := ofString "OPTIONS, HEAD, " ++ ms.flatMap fun m => m.methodName ++ ofString ", "
  allow.take (allow.length - 2)

/-- The number that a method's trie finds. -/
def Router.findIndex (router : Router H) (strtod : Strtod) (url : Bytes) (m : HTTPMethod) : Nat :=
  ((router m).trie.find strtod url .empty).1

/-- `handle`, up to the response. -/
def Router.handle (router : Router H) (strtod : Strtod) (method : HTTPMethod) (url : Bytes) :
    Decision H :=
  if method = .options then
    if url = ofString "/*" then
      .allow (allowText (HTTPMethod.all.filter fun m => !(router m).trie.children.isEmpty))
    else
      match HTTPMethod.all.filter fun m => router.findIndex strtod url m != 0 with
      | [] => .notFound
      | m :: ms => .allow (allowText (m :: ms))
  else
    let actual := if method = .head then .get else method
    let found := (router actual).trie.find strtod url .empty
    if found.1 = 0 then
      if HTTPMethod.all.any fun m => router.findIndex strtod url m != 0 then .methodNotAllowed
      else .notFound
    else if (router actual).rules.length ≤ found.1 then .corrupted
    else if found.1 = 1 then .redirect
    else
      match (router actual).rules.getD found.1 none with
      | none => .nullRule
      | some rule => .run rule found.2

end Router

end LockFreeKV.Crow
