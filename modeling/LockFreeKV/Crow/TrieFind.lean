import LockFreeKV.Crow.Trie

/-!
# What a trie finds

The entries of a trie are the paths to its numbered nodes, with the numbers. `find` returns the
least number among the entries that match the URL, with the values that this entry's
parameters have read; joining nodes keeps the entries, so it does not change what is found.
-/
namespace LockFreeKV.Crow

open LockFreeKV.Lib

/-! ## What the parameters leave -/

theorem strtoDigits_shrinks {s rest : Bytes} {n : Nat} (h : strtoDigits s = some (n, rest)) :
    ∃ digits, digits ≠ [] ∧ s = digits ++ rest := by
  unfold strtoDigits at h
  split at h
  · cases h
  · next digits hdigits =>
    obtain ⟨-, rfl⟩ := Prod.mk.inj (Option.some.inj h)
    exact ⟨s.takeWhile isDigit, hdigits, (List.takeWhile_append_dropWhile).symm⟩

theorem takeSign_suffix (s : Bytes) : ∃ sign, s = sign ++ (takeSign s).2 := by
  cases s with
  | nil => exact ⟨[], rfl⟩
  | cons c rest =>
    by_cases hminus : c = '-'.toUInt8
    · exact ⟨[c], by rw [takeSign, if_pos hminus]; rfl⟩
    · by_cases hplus : c = '+'.toUInt8
      · exact ⟨[c], by rw [takeSign, if_neg hminus, if_pos hplus]; rfl⟩
      · exact ⟨[], by rw [takeSign, if_neg hminus, if_neg hplus]; rfl⟩

/-- A sign, when there is one, and digits. -/
theorem signedDigits_shrinks {s rest : Bytes} {n : Nat}
    (h : strtoDigits (takeSign s).2 = some (n, rest)) : ∃ taken, taken ≠ [] ∧ s = taken ++ rest := by
  obtain ⟨sign, hsign⟩ := takeSign_suffix s
  obtain ⟨digits, hne, hdigits⟩ := strtoDigits_shrinks h
  refine ⟨sign ++ digits, by simp [hne], ?_⟩
  rw [List.append_assoc, ← hdigits]
  exact hsign

theorem strtoll_shrinks {s rest : Bytes} {value : Int} (h : strtoll s = some (value, rest)) :
    ∃ taken, taken ≠ [] ∧ s = taken ++ rest := by
  obtain ⟨r, hdigits, hvalue⟩ := Option.bind_eq_some_iff.mp h
  obtain ⟨-, heq⟩ := Option.ite_none_right_eq_some.mp hvalue
  obtain ⟨-, rfl⟩ := Prod.mk.inj (Option.some.inj heq)
  exact signedDigits_shrinks hdigits

theorem strtoull_shrinks {s rest : Bytes} {value : Nat} (h : strtoull s = some (value, rest)) :
    ∃ taken, taken ≠ [] ∧ s = taken ++ rest := by
  obtain ⟨r, hdigits, hvalue⟩ := Option.bind_eq_some_iff.mp h
  obtain ⟨-, heq⟩ := Option.ite_none_right_eq_some.mp hvalue
  obtain rfl := Option.some.inj heq
  exact signedDigits_shrinks hdigits

theorem readParam_shrinks (strtod : Strtod) (p : ParamType) (url : Bytes) (value : ParamValue)
    (rest : Bytes) (h : readParam strtod p url = some (value, rest)) :
    ∃ taken, taken ≠ [] ∧ url = taken ++ rest := by
  cases url with
  | nil => cases h
  | cons c cs =>
    cases p with
    | int =>
      simp only [readParam] at h
      split at h
      · obtain ⟨r, hr, heq⟩ := Option.map_eq_some_iff.mp h
        obtain ⟨-, rfl⟩ := Prod.mk.inj heq
        exact strtoll_shrinks hr
      · cases h
    | uint =>
      simp only [readParam] at h
      split at h
      · obtain ⟨r, hr, heq⟩ := Option.map_eq_some_iff.mp h
        obtain ⟨-, rfl⟩ := Prod.mk.inj heq
        exact strtoull_shrinks hr
      · cases h
    | double =>
      simp only [readParam] at h
      split at h
      · obtain ⟨n, hn, heq⟩ := Option.map_eq_some_iff.mp h
        obtain ⟨-, rfl⟩ := Prod.mk.inj heq
        obtain ⟨hpos, hle⟩ := strtod.bounded _ _ hn
        exact ⟨(c :: cs).take n, by simp [Nat.ne_of_gt hpos], (List.take_append_drop n _).symm⟩
      · cases h
    | string =>
      simp only [readParam] at h
      split at h
      · cases h
      · next text htext =>
        obtain ⟨-, rfl⟩ := Prod.mk.inj (Option.some.inj h)
        exact ⟨(c :: cs).takeWhile (· ≠ '/'.toUInt8), htext, (List.takeWhile_append_dropWhile).symm⟩
    | path =>
      obtain ⟨-, rfl⟩ := Prod.mk.inj (Option.some.inj h)
      exact ⟨c :: cs, by simp, by simp⟩

/-- The parameters of rules. -/
def paramReader (strtod : Strtod) : Reader UInt8 ParamType ParamValue :=
  ⟨readParam strtod, readParam_shrinks strtod⟩

namespace Node

/-! ## Entries -/

mutual
/-- The paths below a node to numbered nodes, and their numbers. -/
def entries : Node → List (List Tok × Nat)
  | .node i _ _ children => (if i = 0 then [] else [([], i)]) ++ entriesAmong children

def entriesAmong : List Node → List (List Tok × Nat)
  | [] => []
  | child :: children =>
    (child.entries.map fun e => (child.label ++ e.1, e.2)) ++ entriesAmong children
end

/-- The entries behind the node's own label. -/
def labelled (node : Node) : List (List Tok × Nat) :=
  node.entries.map fun e => (node.label ++ e.1, e.2)

theorem entriesAmong_cons (child : Node) (children : List Node) :
    entriesAmong (child :: children) = child.labelled ++ entriesAmong children := by
  rw [entriesAmong, labelled]

theorem entriesAmong_append (cs cs' : List Node) :
    entriesAmong (cs ++ cs') = entriesAmong cs ++ entriesAmong cs' := by
  induction cs with
  | nil => rw [List.nil_append, entriesAmong, List.nil_append]
  | cons c cs ih =>
    rw [List.cons_append, entriesAmong_cons, entriesAmong_cons, ih, List.append_assoc]

theorem entries_eq (node : Node) :
    node.entries = (if node.ruleIndex = 0 then [] else [([], node.ruleIndex)]) ++
      entriesAmong node.children := by
  cases node
  rw [entries, ruleIndex, children]

mutual
/-- Every node below the head reads something. -/
def Labelled : Node → Prop
  | .node _ _ _ children => AllLabelled children

def AllLabelled : List Node → Prop
  | [] => True
  | child :: children => child.label ≠ [] ∧ child.Labelled ∧ AllLabelled children
end

/-! ## The candidates for a URL -/

/-- What the matching entries offer, behind parameters read before. -/
def offers (strtod : Strtod) (es : List (List Tok × Nat)) (url : Bytes) (params : RoutingParams) :
    Set (Nat × RoutingParams) :=
  {x | ∃ toks values, (toks, x.1) ∈ es ∧ matchTokens (paramReader strtod) toks url = some values ∧
    x.2 = params.pushAll values}

section Offers

variable {strtod : Strtod} {es es' : List (List Tok × Nat)} {url : Bytes} {params : RoutingParams}

@[simp] theorem offers_nil : offers strtod [] url params = ∅ := by
  ext x
  simp [offers]

theorem offers_append :
    offers strtod (es ++ es') url params = offers strtod es url params ∪ offers strtod es' url params := by
  ext x
  simp only [offers, Set.mem_ofPred_eq, List.mem_append, Set.mem_union]
  constructor
  · intro h
    obtain ⟨toks, values, hmem, hmatch⟩ := h
    exact hmem.imp (fun hm => ⟨toks, values, hm, hmatch⟩) fun hm => ⟨toks, values, hm, hmatch⟩
  · intro h
    rcases h with ⟨toks, values, hmem, hmatch⟩ | ⟨toks, values, hmem, hmatch⟩
    · exact ⟨toks, values, .inl hmem, hmatch⟩
    · exact ⟨toks, values, .inr hmem, hmatch⟩

/-- Behind a parameter. -/
theorem offers_param {p : ParamType} {value : ParamValue} {rest : Bytes}
    (hread : readParam strtod p url = some (value, rest)) :
    offers strtod (es.map fun e => ([.param p] ++ e.1, e.2)) url params =
      offers strtod es rest (params.push value) := by
  ext x
  simp only [offers, Set.mem_ofPred_eq, List.mem_map, Prod.mk.injEq]
  constructor
  · intro h
    obtain ⟨toks, values, ⟨⟨toks', i⟩, hmem, rfl, rfl⟩, hmatch, hx⟩ := h
    obtain ⟨v, r, values', hread', hrest, rfl⟩ := (matchTokens_param _).mp hmatch
    obtain ⟨rfl, rfl⟩ := Prod.mk.inj (Option.some.inj (hread.symm.trans hread'))
    exact ⟨toks', values', hmem, hrest, hx⟩
  · intro h
    obtain ⟨toks, values, hmem, hmatch, hx⟩ := h
    exact ⟨_, value :: values, ⟨_, hmem, rfl, rfl⟩,
      (matchTokens_param _).mpr ⟨value, rest, values, hread, hmatch, rfl⟩, hx⟩

theorem offers_param_none {p : ParamType} (hread : readParam strtod p url = none) :
    offers strtod (es.map fun e => ([.param p] ++ e.1, e.2)) url params = ∅ := by
  refine Set.eq_empty_iff_forall_notMem.mpr fun x hx => ?_
  obtain ⟨toks, values, hmem, hmatch, -⟩ := hx
  obtain ⟨e, -, heq⟩ := List.mem_map.mp hmem
  obtain ⟨rfl, -⟩ := Prod.mk.inj heq
  obtain ⟨v, r, _, hread', -⟩ := (matchTokens_param _).mp hmatch
  have hnone : readParam strtod p url = some (v, r) := hread'
  rw [hread] at hnone
  cases hnone

/-- Behind a key. -/
theorem offers_lits {key rest : Bytes} :
    offers strtod (es.map fun e => (key.map .lit ++ e.1, e.2)) (key ++ rest) params =
      offers strtod es rest params := by
  ext x
  simp only [offers, Set.mem_ofPred_eq, List.mem_map, Prod.mk.injEq]
  constructor
  · intro h
    obtain ⟨toks, values, ⟨⟨toks', i⟩, hmem, rfl, rfl⟩, hmatch, hx⟩ := h
    obtain ⟨rest', heq, hrest⟩ := (matchTokens_lits _ key).mp hmatch
    obtain rfl := List.append_cancel_left heq
    exact ⟨toks', values, hmem, hrest, hx⟩
  · intro h
    obtain ⟨toks, values, hmem, hmatch, hx⟩ := h
    exact ⟨_, values, ⟨_, hmem, rfl, rfl⟩, (matchTokens_lits _ key).mpr ⟨rest, rfl, hmatch⟩, hx⟩

theorem offers_lits_none {key : Bytes} (hkey : key.isPrefixOf url = false) :
    offers strtod (es.map fun e => (key.map .lit ++ e.1, e.2)) url params = ∅ := by
  refine Set.eq_empty_iff_forall_notMem.mpr fun x hx => ?_
  obtain ⟨toks, values, hmem, hmatch, -⟩ := hx
  obtain ⟨e, -, heq⟩ := List.mem_map.mp hmem
  obtain ⟨rfl, -⟩ := Prod.mk.inj heq
  obtain ⟨rest, rfl, -⟩ := (matchTokens_lits _ key).mp hmatch
  rw [List.isPrefixOf_iff_prefix.mpr (List.prefix_append key rest)] at hkey
  cases hkey

/-- Paths that read something do not match the end of the URL. -/
theorem offers_end (hne : ∀ e ∈ es, e.1 ≠ []) : offers strtod es [] params = ∅ := by
  refine Set.eq_empty_iff_forall_notMem.mpr fun x hx => ?_
  obtain ⟨toks, values, hmem, hmatch, -⟩ := hx
  exact hne _ hmem (eq_nil_of_match_nil _ hmatch)

/-- The node's own entry matches the end of the URL only. -/
theorem offers_own {i : Nat} (hurl : url ≠ []) :
    offers strtod (if i = 0 then [] else [([], i)]) url params = ∅ := by
  refine Set.eq_empty_iff_forall_notMem.mpr fun x hx => ?_
  obtain ⟨toks, values, hmem, hmatch, -⟩ := hx
  split at hmem
  · cases hmem
  · obtain ⟨rfl, -⟩ := Prod.mk.inj (List.mem_singleton.mp hmem)
    exact hurl ((matchTokens_nil_iff _).mp hmatch).1

end Offers

theorem ne_nil_of_mem_entriesAmong {children : List Node} (hl : AllLabelled children) :
    ∀ e ∈ entriesAmong children, e.1 ≠ [] := by
  induction children with
  | nil => simp [entriesAmong]
  | cons child children ih =>
    rw [AllLabelled] at hl
    obtain ⟨hlabel, -, hrest⟩ := hl
    intro e he
    rw [entriesAmong_cons] at he
    rcases List.mem_append.mp he with hown | hother
    · obtain ⟨e', -, rfl⟩ := List.mem_map.mp hown
      exact fun hnil => hlabel (List.append_eq_nil_iff.mp hnil).1
    · exact ih hrest e hother

/-! ## What is found -/

mutual
theorem find_least (strtod : Strtod) : ∀ (node : Node), node.Labelled →
    ∀ (url : Bytes) (params : RoutingParams),
      LeastOf (offers strtod node.entries url params) (node.find strtod url params)
  | .node i key param children, hl, url, params => by
    rw [Labelled] at hl
    rw [entries, offers_append]
    cases url with
    | nil =>
      rw [find, offers_end (ne_nil_of_mem_entriesAmong hl), Set.union_empty]
      by_cases hi : i = 0
      · rw [if_pos hi, offers_nil]
        exact .empty hi
      · have hown : offers strtod [([], i)] [] params = {(i, params)} := by
          ext x
          simp [offers, Prod.ext_iff]
        rw [if_neg hi, hown]
        exact .singleton hi
    | cons c cs =>
      rw [find, offers_own (by simp)]
      exact findAmong_least strtod children hl (c :: cs) params _ _ (.empty rfl)

theorem findAmong_least (strtod : Strtod) : ∀ (children : List Node), AllLabelled children →
    ∀ (url : Bytes) (params : RoutingParams) (S : Set (Nat × RoutingParams))
      (found : Nat × RoutingParams), LeastOf S found →
      LeastOf (S ∪ offers strtod (entriesAmong children) url params)
        (findAmong strtod children url params found)
  | [], _, url, params, S, found, hfound => by
    rw [entriesAmong, offers_nil, Set.union_empty, findAmong]
    exact hfound
  | child :: children, hl, url, params, S, found, hfound => by
    rw [AllLabelled] at hl
    obtain ⟨-, hchild, hrest⟩ := hl
    rw [entriesAmong_cons, offers_append, ← Set.union_assoc, findAmong]
    refine findAmong_least strtod children hrest url params _ _ ?_
    rw [labelled, label]
    cases hparam : child.param with
    | some p =>
      simp only
      cases hread : readParam strtod p url with
      | none =>
        rw [offers_param_none hread, Set.union_empty]
        exact hfound
      | some result =>
        obtain ⟨value, rest⟩ := result
        rw [offers_param hread]
        exact hfound.union (find_least strtod child hchild rest (params.push value))
    | none =>
      simp only
      by_cases hkey : child.key.isPrefixOf url = true
      · obtain ⟨rest, rfl⟩ := List.isPrefixOf_iff_prefix.mp hkey
        rw [if_pos hkey, offers_lits, List.drop_left]
        exact hfound.union (find_least strtod child hchild rest params)
      · rw [if_neg hkey, offers_lits_none (Bool.eq_false_of_not_eq_true hkey), Set.union_empty]
        exact hfound
end

/-! ## Joining nodes -/

/-- The label of a node whose key has grown. -/
def gatheredLabel (gathered : Bytes) (node : Node) : List Tok :=
  match node.param with
  | some p => [.param p]
  | none => (gathered ++ node.key).map .lit

theorem isSimpleNode_single {i : Nat} {key : Bytes} {param : Option ParamType} {child : Node}
    (h : isSimpleNode (.node i key param [child]) = true) :
    i = 0 ∧ param = none ∧ child.param = none := by
  simpa [isSimpleNode, and_assoc] using h

mutual
/-- A node without a parameter keeps its entries when it is joined with those below it. -/
theorem labelled_optimizeNode : ∀ (node : Node) (gathered : Bytes),
    node.param = none ∨ gathered = [] →
    (optimizeNode gathered node).labelled =
      node.entries.map fun e => (gatheredLabel gathered node ++ e.1, e.2)
  | .node i key param [], gathered, h => by
    rw [optimizeNode, labelled]
    cases param <;> rfl
  | .node i key param [child], gathered, h => by
    rw [optimizeNode]
    by_cases hsimple : isSimpleNode (.node i key param [child]) = true
    · obtain ⟨rfl, rfl, hchild⟩ := isSimpleNode_single hsimple
      rw [if_pos hsimple, labelled_optimizeNode child (gathered ++ key) (.inl hchild), entries,
        entriesAmong_cons, entriesAmong, labelled]
      simp [gatheredLabel, label, hchild]
    · rw [if_neg hsimple, labelled, entries, entries, entriesAmong_cons, entriesAmong_cons,
        labelled_optimizeNode child [] (.inr rfl)]
      cases param <;> rfl
  | .node i key param (c :: c' :: cs), gathered, h => by
    rw [optimizeNode, labelled, entries, entries, entriesAmong_cons, entriesAmong_cons,
      entriesAmong_cons, entriesAmong_cons, labelled_optimizeNode c [] (.inr rfl),
      labelled_optimizeNode c' [] (.inr rfl), entriesAmong_optimizeAll cs]
    cases param <;> rfl

theorem entriesAmong_optimizeAll : ∀ (children : List Node),
    entriesAmong (optimizeAll children) = entriesAmong children
  | [] => by rw [optimizeAll]
  | c :: cs => by
    rw [optimizeAll, entriesAmong_cons, entriesAmong_cons, entriesAmong_optimizeAll cs,
      labelled_optimizeNode c [] (.inr rfl)]
    rfl
end

theorem label_optimizeNode : ∀ (node : Node) (gathered : Bytes),
    node.param = none ∨ gathered = [] → gatheredLabel gathered node ≠ [] →
    (optimizeNode gathered node).label ≠ []
  | .node i key param [], gathered, _, hne => by
    rw [optimizeNode]
    cases param <;> exact hne
  | .node i key param [child], gathered, _, hne => by
    rw [optimizeNode]
    by_cases hsimple : isSimpleNode (.node i key param [child]) = true
    · obtain ⟨rfl, rfl, hchild⟩ := isSimpleNode_single hsimple
      rw [if_pos hsimple]
      refine label_optimizeNode child _ (.inl hchild) ?_
      have hkey : gathered ++ key ≠ [] := by simpa [gatheredLabel] using hne
      simpa [gatheredLabel, hchild] using fun hg hk => absurd (by rw [hg, hk]; rfl) hkey
    · rw [if_neg hsimple]
      cases param <;> exact hne
  | .node i key param (c :: c' :: cs), gathered, _, hne => by
    rw [optimizeNode]
    cases param <;> exact hne

mutual
theorem labelled_of_optimizeNode : ∀ (node : Node) (gathered : Bytes), node.Labelled →
    (optimizeNode gathered node).Labelled
  | .node i key param [], gathered, h => by
    rw [optimizeNode]
    exact h
  | .node i key param [child], gathered, h => by
    rw [Labelled, AllLabelled] at h
    rw [optimizeNode]
    split
    · exact labelled_of_optimizeNode child _ h.2.1
    · rw [Labelled, AllLabelled]
      exact ⟨label_optimizeNode child [] (.inr rfl) h.1, labelled_of_optimizeNode child [] h.2.1,
        h.2.2⟩
  | .node i key param (c :: c' :: cs), gathered, h => by
    rw [Labelled, AllLabelled, AllLabelled] at h
    rw [optimizeNode, Labelled, AllLabelled, AllLabelled]
    exact ⟨label_optimizeNode c [] (.inr rfl) h.1, labelled_of_optimizeNode c [] h.2.1,
      label_optimizeNode c' [] (.inr rfl) h.2.2.1, labelled_of_optimizeNode c' [] h.2.2.2.1,
      allLabelled_optimizeAll cs h.2.2.2.2⟩

theorem allLabelled_optimizeAll : ∀ (children : List Node), AllLabelled children →
    AllLabelled (optimizeAll children)
  | [], h => by
    rw [optimizeAll]
    exact h
  | c :: cs, h => by
    rw [AllLabelled] at h
    rw [optimizeAll, AllLabelled]
    exact ⟨label_optimizeNode c [] (.inr rfl) h.1, labelled_of_optimizeNode c [] h.2.1,
      allLabelled_optimizeAll cs h.2.2⟩
end

/-- **Joining nodes** keeps the entries, and thereby what is found. -/
theorem validate_eq {head trie : Node} (h : head.validate = .ok trie) :
    trie.entries = head.entries ∧ (head.Labelled → trie.Labelled) := by
  unfold validate at h
  split at h
  · cases h
    refine ⟨?_, fun hl => ?_⟩
    · rw [entries, entriesAmong_optimizeAll, entries_eq head]
    · rw [Labelled]
      refine allLabelled_optimizeAll _ ?_
      cases head
      rwa [Labelled] at hl
  · cases h

end Node

end LockFreeKV.Crow
