import LockFreeKV.Crow.TrieFind
import Mathlib.Data.List.Nodup

/-!
# Adding a pattern to a trie

`add` follows the pieces of a rule from node to node and makes the nodes that are missing.
Nodes made so have one piece each and their siblings have other pieces, so a pattern has
one place in the trie: adding it makes it an entry, and fails when it is one already.
-/
namespace LockFreeKV.Crow

open LockFreeKV.Lib

/-! ## The first element with a property -/

theorem updateFirst_cases {α ε : Type} (p : α → Bool) (f : α → Except ε α) (new : α)
    (xs : List α) :
    (∃ pre x post, xs = pre ++ x :: post ∧ p x = true ∧
      updateFirst p f new xs = (f x).map fun x' => pre ++ x' :: post) ∨
    ((∀ x ∈ xs, p x = false) ∧ updateFirst p f new xs = (f new).map fun x' => xs ++ [x']) := by
  induction xs with
  | nil =>
    refine .inr ⟨by simp, ?_⟩
    rw [updateFirst]
    cases f new <;> rfl
  | cons x xs ih =>
    rw [updateFirst]
    cases hp : p x with
    | true =>
      refine .inl ⟨[], x, xs, rfl, hp, ?_⟩
      simp only [if_true]
      cases f x <;> rfl
    | false =>
      simp only [Bool.false_eq_true, if_false]
      rcases ih with ⟨pre, y, post, rfl, hy, heq⟩ | ⟨hno, heq⟩
      · refine .inl ⟨x :: pre, y, post, rfl, hy, ?_⟩
        rw [heq]
        cases f y <;> rfl
      · refine .inr ⟨by simpa using ⟨hp, hno⟩, ?_⟩
        rw [heq]
        cases f new <;> rfl

namespace Node

/-! ## Tries under construction -/

/-- The node was made for the piece. -/
def Starts (tok : Tok) (node : Node) : Prop :=
  tok ≠ .lit 0 ∧ node.param = (newNode tok).param ∧ node.key = (newNode tok).key

theorem Starts.label {tok : Tok} {node : Node} (h : Starts tok node) : node.label = [tok] := by
  obtain ⟨-, hparam, hkey⟩ := h
  rw [Node.label, hparam, hkey]
  cases tok <;> rfl

theorem Starts.unique {tok tok' : Tok} {node : Node} (h : Starts tok node)
    (h' : Starts tok' node) : tok = tok' := by
  simpa using h.label.symm.trans h'.label

theorem Starts.startsWith_iff {tok tok' : Tok} {node : Node} (h : Starts tok node)
    (htok : tok' ≠ .lit 0) : startsWith tok' node = true ↔ tok' = tok := by
  obtain ⟨hne, hparam, hkey⟩ := h
  cases tok' with
  | param p =>
    rw [startsWith, hparam]
    cases tok with
    | param p' =>
      simp only [newNode, param_node, beq_iff_eq, Option.some.injEq, Token.param.injEq]
      exact eq_comm
    | lit c => simp [newNode]
  | lit c =>
    rw [startsWith, hkey]
    cases tok with
    | param p =>
      have hc : ¬ (0 : UInt8) = c := fun h0 => htok (by rw [← h0])
      simp [newNode, hc]
    | lit c' =>
      simp only [newNode, beq_iff_eq, Token.lit.injEq]
      exact eq_comm

theorem starts_newNode {tok : Tok} (htok : tok ≠ .lit 0) : Starts tok (newNode tok) :=
  ⟨htok, rfl, rfl⟩

mutual
/-- A trie as `add` leaves it: one piece a node, no two children with the same piece, and
a numbered node below every node. -/
inductive Plain : Node → Prop
  | node {i : Nat} {key : Bytes} {param : Option ParamType} {children : List Node}
      (siblings : Siblings children) (live : ∀ c ∈ children, c.entries ≠ []) :
      Plain (.node i key param children)

/-- Children with different pieces. -/
inductive Siblings : List Node → Prop
  | mk {children : List Node} (plain : ∀ c ∈ children, Plain c)
      (starts : ∀ c ∈ children, ∃ tok, Starts tok c) (distinct : (children.map label).Nodup) :
      Siblings children
end

theorem Siblings.plain {children : List Node} (h : Siblings children) : ∀ c ∈ children, Plain c :=
  match h with
  | .mk plain _ _ => plain

theorem Siblings.starts {children : List Node} (h : Siblings children) :
    ∀ c ∈ children, ∃ tok, Starts tok c :=
  match h with
  | .mk _ starts _ => starts

theorem Siblings.distinct {children : List Node} (h : Siblings children) :
    (children.map label).Nodup :=
  match h with
  | .mk _ _ distinct => distinct

theorem siblings_nil : Siblings [] := .mk (by simp) (by simp) (by simp)

theorem plain_newNode (tok : Tok) : Plain (newNode tok) := by
  cases tok <;> exact .node siblings_nil (by simp)

theorem plain_empty : Plain empty := .node siblings_nil (by simp)

theorem entries_empty : entries empty = [] := by rw [empty, entries, entriesAmong]; rfl

theorem entries_newNode (tok : Tok) : entries (newNode tok) = [] := by
  cases tok <;> rw [newNode, entries, entriesAmong] <;> rfl

theorem mem_entriesAmong {children : List Node} {e : List Tok × Nat} :
    e ∈ entriesAmong children ↔ ∃ c ∈ children, e ∈ c.labelled := by
  induction children with
  | nil => simp [entriesAmong]
  | cons c cs ih =>
    rw [entriesAmong_cons, List.mem_append, ih]
    simp

theorem Starts.mem_labelled {tok : Tok} {node : Node} (h : Starts tok node)
    {e : List Tok × Nat} :
    e ∈ node.labelled ↔ ∃ toks, e.1 = tok :: toks ∧ (toks, e.2) ∈ node.entries := by
  rw [labelled, h.label, List.mem_map]
  constructor
  · intro hm
    obtain ⟨e', hm', rfl⟩ := hm
    exact ⟨e'.1, rfl, hm'⟩
  · intro hm
    obtain ⟨toks, htoks, hm'⟩ := hm
    exact ⟨(toks, e.2), hm', Prod.ext htoks.symm rfl⟩

namespace Siblings

variable {pre post children : List Node} {c c' : Node} {tok : Tok}

/-- The pieces of the children tell them apart. -/
theorem unique (hs : Siblings children) (hc : c ∈ children) (hc' : c' ∈ children)
    (h : Starts tok c) (h' : Starts tok c') : c = c' :=
  List.inj_on_of_nodup_map hs.distinct hc hc' (h.label.trans h'.label.symm)

/-- The entries that begin with the piece of a child. -/
theorem mem_entriesAmong_cons (hs : Siblings children) (hc : c ∈ children) (h : Starts tok c)
    {toks : List Tok} {i : Nat} :
    (tok :: toks, i) ∈ entriesAmong children ↔ (toks, i) ∈ c.entries := by
  rw [mem_entriesAmong]
  constructor
  · intro hm
    obtain ⟨d, hd, hlab⟩ := hm
    obtain ⟨tok', htok'⟩ := hs.starts d hd
    obtain ⟨toks', heq, hent⟩ := htok'.mem_labelled.mp hlab
    obtain ⟨rfl, rfl⟩ := List.cons_eq_cons.mp heq
    rwa [hs.unique hd hc htok' h] at hent
  · exact fun hent => ⟨c, hc, h.mem_labelled.mpr ⟨toks, rfl, hent⟩⟩

theorem replace (hs : Siblings (pre ++ c :: post)) (hc : Starts tok c) (hc' : Starts tok c')
    (hplain : Plain c') : Siblings (pre ++ c' :: post) := by
  have hmem : ∀ d ∈ pre ++ c' :: post, d = c' ∨ d ∈ pre ++ c :: post := by
    intro d hd
    simp only [List.mem_append, List.mem_cons] at hd ⊢
    tauto
  refine .mk (fun d hd => ?_) (fun d hd => ?_) ?_
  · rcases hmem d hd with rfl | hd
    · exact hplain
    · exact hs.plain d hd
  · rcases hmem d hd with rfl | hd
    · exact ⟨tok, hc'⟩
    · exact hs.starts d hd
  · simpa [hc.label, hc'.label] using hs.distinct

theorem add (hs : Siblings children) (htok : tok ≠ .lit 0) (hno : ∀ c ∈ children, ¬ Starts tok c) :
    Siblings (children ++ [newNode tok]) := by
  have hmem : ∀ d ∈ children ++ [newNode tok], d ∈ children ∨ d = newNode tok := by simp
  refine .mk (fun d hd => ?_) (fun d hd => ?_) ?_
  · rcases hmem d hd with hd | rfl
    · exact hs.plain d hd
    · exact plain_newNode tok
  · rcases hmem d hd with hd | rfl
    · exact hs.starts d hd
    · exact ⟨tok, starts_newNode htok⟩
  · rw [List.map_append, List.map_singleton, List.nodup_append]
    refine ⟨hs.distinct, by simp, ?_⟩
    rintro _ hm _ hl rfl
    obtain ⟨d, hd, hlabel⟩ := List.mem_map.mp hm
    obtain ⟨tok', htok'⟩ := hs.starts d hd
    rw [List.mem_singleton.mp hl, (starts_newNode htok).label, htok'.label] at hlabel
    obtain rfl : tok' = tok := by simpa using hlabel
    exact hno d hd htok'

end Siblings

theorem Plain.siblings {node : Node} (h : Plain node) : Siblings node.children :=
  match h with
  | .node siblings _ => siblings

theorem Plain.live {node : Node} (h : Plain node) : ∀ c ∈ node.children, c.entries ≠ [] :=
  match h with
  | .node _ live => live

mutual
theorem labelled_of_plain : ∀ (node : Node), Plain node → node.Labelled
  | .node i key param children, h => by
    rw [Labelled]
    exact allLabelled_of_plain children h.siblings.plain h.siblings.starts

theorem allLabelled_of_plain : ∀ (children : List Node), (∀ c ∈ children, Plain c) →
    (∀ c ∈ children, ∃ tok, Starts tok c) → AllLabelled children
  | [], _, _ => by rw [AllLabelled]; trivial
  | c :: cs, hplain, hstarts => by
    obtain ⟨tok, htok⟩ := hstarts c (by simp)
    rw [AllLabelled]
    exact ⟨by simp [htok.label], labelled_of_plain c (hplain c (by simp)),
      allLabelled_of_plain cs (fun d hd => hplain d (by simp [hd]))
        fun d hd => hstarts d (by simp [hd])⟩
end

/-! ## Adding a pattern -/

section Insert

variable {r : Nat} {tok : Tok} {toks : List Tok} {node node' : Node} {i : Nat} {key : Bytes}
  {param : Option ParamType} {children : List Node}

theorem insert_nil : insert r [] (.node i key param children) =
    if i ≠ 0 then .error .handlerExists else .ok (.node r key param children) := rfl

variable (r toks) in
/-- What `add` does below a node: it goes on in the child with the piece, which it has made
when there was none. -/
theorem insert_cons (hp : Plain (.node i key param children)) (htok : tok ≠ .lit 0) :
    ∃ pre c post, Siblings (pre ++ c :: post) ∧ Starts tok c ∧
      (∀ e, e ∈ entriesAmong (pre ++ c :: post) ↔ e ∈ entriesAmong children) ∧
      (∀ d ∈ pre ++ post, d.entries ≠ []) ∧
      insert r (tok :: toks) (.node i key param children) =
        (insert r toks c).map fun c' => .node i key param (pre ++ c' :: post) := by
  have hs := hp.siblings
  have hlive := hp.live
  rw [children_node] at hs hlive
  have hinsert : insert r (tok :: toks) (.node i key param children) =
      (updateFirst (startsWith tok) (insert r toks) (newNode tok) children).map
        fun cs => .node i key param cs := by
    rw [insert]
    cases updateFirst (startsWith tok) (insert r toks) (newNode tok) children <;> rfl
  rcases updateFirst_cases (startsWith tok) (insert r toks) (newNode tok) children with
    ⟨pre, c, post, rfl, hc, heq⟩ | ⟨hno, heq⟩
  · obtain ⟨tok', htok'⟩ := hs.starts c (by simp)
    obtain rfl := (htok'.startsWith_iff htok).mp hc
    refine ⟨pre, c, post, hs, htok', fun _ => Iff.rfl, fun d hd => hlive d ?_, ?_⟩
    · simp only [List.mem_append, List.mem_cons] at hd ⊢
      tauto
    · rw [hinsert, heq]
      cases insert r toks c <;> rfl
  · have hnone : ∀ c ∈ children, ¬ Starts tok c := fun c hc hstarts => by
      have hfalse := hno c hc
      rw [(hstarts.startsWith_iff htok).mpr rfl] at hfalse
      cases hfalse
    refine ⟨children, newNode tok, [], hs.add htok hnone, starts_newNode htok, fun e => ?_,
      by simpa using hlive, ?_⟩
    · rw [entriesAmong_append, entriesAmong_cons, Node.labelled, entries_newNode]
      simp [entriesAmong]
    · rw [hinsert, heq]
      cases insert r toks (newNode tok) <;> rfl

/-- A pattern with a piece in front is no entry of the node itself. -/
theorem mem_entries_cons {j : Nat} : (tok :: toks, j) ∈ (Node.node i key param children).entries ↔
    (tok :: toks, j) ∈ entriesAmong children := by
  rw [entries, List.mem_append]
  refine or_iff_right fun hown => ?_
  split at hown <;> simp at hown

/-- A new pattern becomes an entry, and nothing else changes. -/
theorem insert_ok (hr : r ≠ 0) (htoks : .lit 0 ∉ toks) (hp : Plain node)
    (h : insert r toks node = .ok node') :
    (∀ i, (toks, i) ∉ node.entries) ∧ Plain node' ∧ node'.param = node.param ∧
      node'.key = node.key ∧ ∀ e, e ∈ node'.entries ↔ e = (toks, r) ∨ e ∈ node.entries := by
  induction toks generalizing node node' with
  | nil =>
    obtain ⟨i, key, param, children⟩ := node
    rw [insert_nil] at h
    split at h
    · cases h
    · next hi =>
      cases h
      obtain rfl : i = 0 := not_not.mp hi
      have hl := labelled_of_plain _ hp
      rw [Labelled] at hl
      have hne := ne_nil_of_mem_entriesAmong hl
      refine ⟨fun j hj => hne _ (by simpa [entries] using hj) rfl, ?_, rfl, rfl, fun e => ?_⟩
      · exact .node hp.siblings hp.live
      · simp [entries, hr]
  | cons tok toks ih =>
    obtain ⟨i, key, param, children⟩ := node
    have htok : tok ≠ .lit 0 := fun h0 => htoks (by simp [h0])
    obtain ⟨pre, c, post, hs, hstarts, hsame, hlive, heq⟩ := insert_cons r toks hp htok
    rw [heq] at h
    cases hc : insert r toks c with
    | error e => rw [hc] at h; cases h
    | ok c' =>
      rw [hc] at h
      cases h
      obtain ⟨hfresh, hplain', hparam', hkey', hentries⟩ :=
        ih (fun hm => htoks (by simp [hm])) (hs.plain c (by simp)) hc
      have hstarts' : Starts tok c' :=
        ⟨hstarts.1, hparam'.trans hstarts.2.1, hkey'.trans hstarts.2.2⟩
      have hchild : ∀ e, e ∈ c'.labelled ↔ e = (tok :: toks, r) ∨ e ∈ c.labelled := by
        intro e
        rw [hstarts.mem_labelled, hstarts'.mem_labelled]
        constructor
        · intro hm
          obtain ⟨toks', he, hent⟩ := hm
          rcases (hentries _).mp hent with hnew | hold
          · obtain ⟨rfl, hr'⟩ := Prod.mk.inj hnew
            exact .inl (Prod.ext he hr')
          · exact .inr ⟨toks', he, hold⟩
        · intro hm
          rcases hm with rfl | ⟨toks', he, hold⟩
          · exact ⟨toks, rfl, (hentries _).mpr (.inl rfl)⟩
          · exact ⟨toks', he, (hentries _).mpr (.inr hold)⟩
      refine ⟨fun j hj => ?_, .node (hs.replace hstarts hstarts' hplain') fun d hd => ?_, rfl, rfl,
        fun e => ?_⟩
      · rw [mem_entries_cons, ← hsame, hs.mem_entriesAmong_cons (by simp) hstarts] at hj
        exact hfresh _ hj
      · by_cases hd' : d = c'
        · rw [hd']
          exact List.ne_nil_of_mem ((hentries _).mpr (.inl rfl))
        · refine hlive d ?_
          simp only [List.mem_append, List.mem_cons] at hd ⊢
          tauto
      · have hbefore := hsame e
        rw [entriesAmong_append, entriesAmong_cons] at hbefore
        rw [entries, entries, List.mem_append, List.mem_append, ← hbefore, entriesAmong_append,
          entriesAmong_cons]
        simp only [List.mem_append, hchild]
        tauto

/-- `add` fails on a pattern that is there. -/
theorem insert_error {err : RouterError} (htoks : .lit 0 ∉ toks) (hp : Plain node)
    (h : insert r toks node = .error err) :
    err = .handlerExists ∧ ∃ i, (toks, i) ∈ node.entries := by
  induction toks generalizing node with
  | nil =>
    obtain ⟨i, key, param, children⟩ := node
    rw [insert_nil] at h
    split at h
    · next hi =>
      cases h
      exact ⟨rfl, i, by simp [entries, hi]⟩
    · cases h
  | cons tok toks ih =>
    obtain ⟨i, key, param, children⟩ := node
    have htok : tok ≠ .lit 0 := fun h0 => htoks (by simp [h0])
    obtain ⟨pre, c, post, hs, hstarts, hsame, -, heq⟩ := insert_cons r toks hp htok
    rw [heq] at h
    cases hc : insert r toks c with
    | ok c' => rw [hc] at h; cases h
    | error e =>
      rw [hc] at h
      cases h
      obtain ⟨rfl, j, hj⟩ := ih (fun hm => htoks (by simp [hm])) (hs.plain c (by simp)) hc
      refine ⟨rfl, j, ?_⟩
      rw [mem_entries_cons, ← hsame, hs.mem_entriesAmong_cons (by simp) hstarts]
      exact hj

end Insert

end Node

end LockFreeKV.Crow
