import LockFreeKV.Crow.TrieInsert

/-!
# From rules to a trie

A trie into which rules have been added has exactly their patterns as entries. It is
accepted when all patterns begin with the same character, and finds for a URL the least
number of the rules that match.
-/
namespace LockFreeKV.Crow

open LockFreeKV.Lib

/-- The patterns of numbered rules, when every parameter has a known name. -/
def patterns (rules : List (Bytes × Nat)) : Option (List (List Tok × Nat)) :=
  rules.mapM fun rule => (Node.tokens 0 rule.1).map fun toks => (toks, rule.2)

/-- The rules added one after another. -/
def addAll (head : Node) (rules : List (Bytes × Nat)) : Except RouterError Node :=
  rules.foldlM (fun head rule => head.add rule.1 rule.2) head

/-- The trie of the rules. -/
def buildTrie (rules : List (Bytes × Nat)) : Except RouterError Node := do
  let head ← addAll .empty rules
  head.validate

/-- What `add` can take: numbers other than 0, and texts that end at no NUL. -/
def Proper (rules : List (Bytes × Nat)) : Prop := ∀ rule ∈ rules, rule.2 ≠ 0 ∧ 0 ∉ rule.1

/-- A NUL is not made up. -/
theorem lit_zero_notMem_tokens {url : Bytes} (hurl : 0 ∉ url) {skip : Nat} {toks : List Tok}
    (h : Node.tokens skip url = some toks) : .lit 0 ∉ toks := by
  induction skip, url using Node.tokens.induct generalizing toks with
  | case1 skip =>
    rw [Node.tokens] at h
    cases h
    simp
  | case2 skip c rest ih =>
    rw [Node.tokens] at h
    exact ih (fun hm => hurl (by simp [hm])) h
  | case3 rest hnone =>
    rw [Node.tokens, if_pos rfl, hnone] at h
    cases h
  | case4 rest x hx ih =>
    rw [Node.tokens, if_pos rfl, hx] at h
    obtain ⟨toks', htoks', rfl⟩ := Option.map_eq_some_iff.mp h
    simpa using ih (fun hm => hurl (by simp [hm])) htoks'
  | case5 c rest hc ih =>
    rw [Node.tokens, if_neg hc] at h
    obtain ⟨toks', htoks', rfl⟩ := Option.map_eq_some_iff.mp h
    have hc0 : c ≠ 0 := fun h0 => hurl (by simp [h0])
    simpa [hc0.symm] using ih (fun hm => hurl (by simp [hm])) htoks'

/-- The trie has the patterns as entries. -/
structure Holds (ps : List (List Tok × Nat)) (head : Node) : Prop where
  plain : head.Plain
  param : head.param = none
  entries : ∀ e, e ∈ head.entries ↔ e ∈ ps

theorem holds_empty : Holds [] .empty :=
  ⟨Node.plain_empty, rfl, by simp [Node.entries_empty]⟩

theorem patterns_cons {rule : Bytes × Nat} {rules : List (Bytes × Nat)}
    {qs : List (List Tok × Nat)} :
    patterns (rule :: rules) = some qs ↔ ∃ toks qs', Node.tokens 0 rule.1 = some toks ∧
      patterns rules = some qs' ∧ qs = (toks, rule.2) :: qs' := by
  rw [patterns, List.mapM_cons]
  constructor
  · intro h
    obtain ⟨q, hq, hrest⟩ := Option.bind_eq_some_iff.mp h
    obtain ⟨toks, htoks, rfl⟩ := Option.map_eq_some_iff.mp hq
    obtain ⟨qs', hqs', hpure⟩ := Option.bind_eq_some_iff.mp hrest
    exact ⟨toks, qs', htoks, hqs', (Option.some.inj hpure).symm⟩
  · rintro ⟨toks, qs', htoks, hqs', rfl⟩
    rw [htoks, Option.map_some, ← patterns, hqs']
    rfl

theorem number_of_patterns {rules : List (Bytes × Nat)} (hproper : Proper rules)
    {qs : List (List Tok × Nat)} (hqs : patterns rules = some qs) : ∀ q ∈ qs, q.2 ≠ 0 := by
  induction rules generalizing qs with
  | nil =>
    cases hqs
    simp
  | cons rule rules ih =>
    obtain ⟨toks, qs', -, hqs', rfl⟩ := patterns_cons.mp hqs
    intro q hq
    rcases List.mem_cons.mp hq with rfl | hq
    · exact (hproper rule (by simp)).1
    · exact ih (fun rule' hm => hproper rule' (by simp [hm])) hqs' q hq

theorem addAll_cons (head : Node) (rule : Bytes × Nat) (rules : List (Bytes × Nat)) :
    addAll head (rule :: rules) = (head.add rule.1 rule.2).bind fun head' => addAll head' rules := rfl

/-- A pattern apart from others, in front of a list of patterns. -/
theorem nodup_fst_cons {toks : List Tok} {i : Nat} {ps qs : List (List Tok × Nat)} :
    ((ps ++ (toks, i) :: qs).map Prod.fst).Nodup ↔
      (((ps ++ [(toks, i)]) ++ qs).map Prod.fst).Nodup := by
  rw [List.append_assoc, List.singleton_append]

variable {rules : List (Bytes × Nat)} {ps qs : List (List Tok × Nat)} {head head' : Node}

theorem Holds.insert {rule : Bytes × Nat} {toks : List Tok} (hh : Holds ps head)
    (hnum : rule.2 ≠ 0) (hnul : 0 ∉ rule.1) (htoks : Node.tokens 0 rule.1 = some toks)
    (h : head.insert rule.2 toks = .ok head') :
    Holds (ps ++ [(toks, rule.2)]) head' ∧ toks ∉ ps.map Prod.fst := by
  obtain ⟨hfresh, hplain, hparam, -, hentries⟩ :=
    Node.insert_ok hnum (lit_zero_notMem_tokens hnul htoks) hh.plain h
  refine ⟨⟨hplain, hparam.trans hh.param, fun e => ?_⟩, fun hm => ?_⟩
  · rw [hentries, hh.entries, List.mem_append, List.mem_singleton]
    exact or_comm
  · obtain ⟨⟨_, i⟩, hi, rfl⟩ := List.mem_map.mp hm
    exact hfresh i ((hh.entries _).mpr hi)

/-- Rules that have been added had patterns, all different. -/
theorem addAll_ok (hproper : Proper rules) (hh : Holds ps head)
    (hnodup : (ps.map Prod.fst).Nodup) (h : addAll head rules = .ok head') :
    ∃ qs, patterns rules = some qs ∧ Holds (ps ++ qs) head' ∧ ((ps ++ qs).map Prod.fst).Nodup := by
  induction rules generalizing ps head with
  | nil =>
    cases h
    exact ⟨[], rfl, by simpa using hh, by simpa using hnodup⟩
  | cons rule rules ih =>
    obtain ⟨hnum, hnul⟩ := hproper rule (by simp)
    rw [addAll_cons, Node.add] at h
    cases htoks : Node.tokens 0 rule.1 with
    | none => rw [htoks] at h; cases h
    | some toks =>
      simp only [htoks] at h
      cases hadd : head.insert rule.2 toks with
      | error err => rw [hadd] at h; cases h
      | ok mid =>
        rw [hadd] at h
        obtain ⟨hmid, hnew⟩ := hh.insert hnum hnul htoks hadd
        have hnodup' : ((ps ++ [(toks, rule.2)]).map Prod.fst).Nodup := by
          rw [List.map_append, List.nodup_append]
          refine ⟨hnodup, by simp, ?_⟩
          intro p hp q hq hpq
          obtain rfl : q = toks := by simpa using hq
          exact hnew (hpq ▸ hp)
        obtain ⟨qs, hqs, hholds, hall⟩ :=
          ih (fun rule' hm => hproper rule' (by simp [hm])) hmid hnodup' h
        exact ⟨(toks, rule.2) :: qs, patterns_cons.mpr ⟨toks, qs, htoks, hqs, rfl⟩,
          by simpa using hholds, nodup_fst_cons.mpr hall⟩

/-- Rules with patterns that are all different can be added. -/
theorem addAll_of_nodup (hproper : Proper rules) (hh : Holds ps head)
    (hqs : patterns rules = some qs) (hnodup : ((ps ++ qs).map Prod.fst).Nodup) :
    ∃ head', addAll head rules = .ok head' := by
  induction rules generalizing ps qs head with
  | nil => exact ⟨head, rfl⟩
  | cons rule rules ih =>
    obtain ⟨hnum, hnul⟩ := hproper rule (by simp)
    obtain ⟨toks, qs', htoks, hqs', rfl⟩ := patterns_cons.mp hqs
    rw [addAll_cons, Node.add]
    simp only [htoks]
    cases hadd : head.insert rule.2 toks with
    | error err =>
      obtain ⟨-, i, hi⟩ := Node.insert_error (lit_zero_notMem_tokens hnul htoks) hh.plain hadd
      rw [List.map_append, List.nodup_append] at hnodup
      exact absurd rfl (hnodup.2.2 toks (List.mem_map.mpr ⟨_, (hh.entries _).mp hi, rfl⟩) toks (by simp))
    | ok mid =>
      obtain ⟨hmid, -⟩ := hh.insert hnum hnul htoks hadd
      exact ih (fun rule' hm => hproper rule' (by simp [hm])) hmid hqs' (nodup_fst_cons.mp hnodup)

/-- All patterns begin with the same character. -/
def SameStart (ps : List (List Tok × Nat)) : Prop :=
  ∃ c, ∀ p ∈ ps, p.1.head? = some (.lit c)

/-- The head of a trie is accepted when all its paths leave it through one character. -/
theorem Holds.isSimpleNode_iff (hh : Holds ps head) (hpos : ∀ p ∈ ps, p.2 ≠ 0) :
    head.isSimpleNode = true ↔ SameStart ps := by
  obtain ⟨i, key, param, children⟩ := head
  have hs := hh.plain.siblings
  have hlive := hh.plain.live
  rw [Node.children_node] at hs hlive
  obtain rfl : param = none := hh.param
  have hsimple : (Node.node i key none children).isSimpleNode = true ↔
      i = 0 ∧ children.length < 2 ∧ ∀ c ∈ children, c.param = none := by
    show (i == 0 && decide (children.length < 2) && true &&
      children.all fun c => c.param.isNone) = true ↔ _
    simp [and_assoc]
  have hown : ([], i) ∈ ps ↔ i ≠ 0 := by
    constructor
    · exact fun hm => hpos _ hm
    · exact fun hi => (hh.entries _).mp (by simp [Node.entries, hi])
  -- every child is the start of some path
  have hfirst : ∀ c ∈ children, ∀ tok, Node.Starts tok c → ∃ toks j, (tok :: toks, j) ∈ ps := by
    intro c hc tok htok
    obtain ⟨⟨toks, j⟩, he⟩ := List.exists_mem_of_ne_nil _ (hlive c hc)
    refine ⟨toks, j, (hh.entries _).mp ?_⟩
    rw [Node.mem_entries_cons, hs.mem_entriesAmong_cons hc htok]
    exact he
  rw [hsimple]
  constructor
  · rintro ⟨rfl, hlen, hparams⟩
    match hchildren : children with
    | [] =>
      refine ⟨0, fun p hp => ?_⟩
      have he := (hh.entries p).mpr hp
      simp [Node.entries, Node.entriesAmong] at he
    | [c] =>
      obtain ⟨tok, htok⟩ := hs.starts c (by simp)
      cases tok with
      | param q =>
        have hnone := hparams c (by simp)
        rw [htok.2.1] at hnone
        cases hnone
      | lit b =>
        refine ⟨b, fun p hp => ?_⟩
        have he := (hh.entries p).mpr hp
        simp only [Node.entries, if_true, List.nil_append, Node.mem_entriesAmong,
          List.mem_singleton, exists_eq_left, htok.mem_labelled] at he
        obtain ⟨toks, htoks, -⟩ := he
        rw [htoks]
        rfl
    | _ :: _ :: _ => exact absurd hlen (by simp)
  · rintro ⟨b, hb⟩
    have hstart : ∀ c ∈ children, Node.Starts (.lit b) c := by
      intro c hc
      obtain ⟨tok, htok⟩ := hs.starts c hc
      obtain ⟨toks, j, hm⟩ := hfirst c hc tok htok
      obtain rfl : tok = .lit b := by simpa using hb _ hm
      exact htok
    refine ⟨?_, ?_, fun c hc => (hstart c hc).2.1⟩
    · by_contra hi
      have hnil := hb _ (hown.mpr hi)
      cases hnil
    · match children, hs, hstart with
      | [], _, _ => simp
      | [_], _, _ => simp
      | c :: c' :: cs, hs, hstart =>
        have heq := hs.unique (by simp) (by simp) (hstart c (by simp)) (hstart c' (by simp))
        have hdistinct := hs.distinct
        simp [heq] at hdistinct

/-- **When the routes can be set up**: every parameter has a known name, no two rules have the
same pattern, and all rules begin with the same character. -/
theorem buildTrie_iff (hproper : Proper rules) :
    (∃ trie, buildTrie rules = .ok trie) ↔
      ∃ ps, patterns rules = some ps ∧ (ps.map Prod.fst).Nodup ∧ SameStart ps := by
  constructor
  · rintro ⟨trie, htrie⟩
    cases hadd : addAll .empty rules with
    | error err => rw [buildTrie, hadd] at htrie; cases htrie
    | ok head =>
      have hval : head.validate = .ok trie := by rwa [buildTrie, hadd] at htrie
      obtain ⟨ps, hps, hholds, hnodup⟩ := addAll_ok hproper holds_empty (by simp) hadd
      refine ⟨ps, hps, hnodup, (hholds.isSimpleNode_iff (number_of_patterns hproper hps)).mp ?_⟩
      unfold Node.validate at hval
      split at hval
      · assumption
      · cases hval
  · rintro ⟨ps, hps, hnodup, hstart⟩
    obtain ⟨head, hadd⟩ := addAll_of_nodup hproper holds_empty hps hnodup
    obtain ⟨ps', hps', hholds, -⟩ := addAll_ok hproper holds_empty (by simp) hadd
    obtain rfl := Option.some.inj (hps'.symm.trans hps)
    have hsimple := (hholds.isSimpleNode_iff (number_of_patterns hproper hps)).mpr hstart
    have hval : head.validate = .ok (.node head.ruleIndex head.key head.param
        (Node.optimizeAll head.children)) := by rw [Node.validate, if_pos hsimple]
    exact ⟨_, by rw [buildTrie, hadd]; exact hval⟩

/-- **What the finished trie finds.** The number of the first rule whose pattern matches the URL,
with the values of its parameters, and 0 when no rule matches. -/
theorem buildTrie_find (hproper : Proper rules) {trie : Node} (htrie : buildTrie rules = .ok trie) :
    ∃ ps, patterns rules = some ps ∧ ∀ strtod url,
      LeastOf (Node.offers strtod ps url .empty) (trie.find strtod url .empty) := by
  cases hadd : addAll .empty rules with
  | error err => rw [buildTrie, hadd] at htrie; cases htrie
  | ok head =>
    have hval : head.validate = .ok trie := by rwa [buildTrie, hadd] at htrie
    obtain ⟨ps, hps, hholds, -⟩ := addAll_ok hproper holds_empty (by simp) hadd
    obtain ⟨hentries, hlabelled⟩ := Node.validate_eq hval
    refine ⟨ps, hps, fun strtod url => ?_⟩
    have hleast := Node.find_least strtod trie (hlabelled (Node.labelled_of_plain _ hholds.plain))
      url .empty
    have hsame : Node.offers strtod trie.entries url .empty = Node.offers strtod ps url .empty := by
      ext x
      simp only [Node.offers, Set.mem_ofPred_eq, hentries, hholds.entries, List.nil_append]
    rwa [hsame] at hleast

end LockFreeKV.Crow
