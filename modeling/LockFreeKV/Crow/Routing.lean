import LockFreeKV.Crow.Router

/-!
# What the router decides

A set-up router sends a request to the first registered rule of its method that matches the
URL, unless the URL is a rule's directory without its slash: then it redirects, whatever
else matches. The trie and the list of rules never disagree.
-/
namespace LockFreeKV.Crow

open LockFreeKV.Lib

variable {H : Type}

/-! ## The numbers of the rules -/

/-- What a method's trie is told to add, its rules being numbered from `n` on. -/
def numbered : Nat → List (Rule H) → List (Bytes × Nat)
  | _, [] => []
  | n, r :: rs =>
    (r.rule, n) :: ((if r.hasTrailingSlash then [(r.rule.dropLast, 1)] else []) ++
      numbered (n + 1) rs)

theorem mem_numbered {n : Nat} {rs : List (Rule H)} {text : Bytes} {i : Nat} :
    (text, i) ∈ numbered n rs ↔
      (∃ k r, rs[k]? = some r ∧ i = n + k ∧ text = r.rule) ∨
      (i = 1 ∧ ∃ r ∈ rs, r.hasTrailingSlash = true ∧ text = r.rule.dropLast) := by
  induction rs generalizing n with
  | nil => simp [numbered]
  | cons r rs ih =>
    rw [numbered, List.mem_cons, List.mem_append, ih]
    constructor
    · rintro (h | h | ⟨k, r', hk, rfl, rfl⟩ | ⟨rfl, r', hr', hslash, rfl⟩)
      · obtain ⟨rfl, rfl⟩ := Prod.mk.inj h
        exact .inl ⟨0, r, rfl, rfl, rfl⟩
      · by_cases hslash : r.hasTrailingSlash = true
        · rw [if_pos hslash, List.mem_singleton] at h
          obtain ⟨rfl, rfl⟩ := Prod.mk.inj h
          exact .inr ⟨rfl, r, by simp, hslash, rfl⟩
        · rw [if_neg hslash] at h
          cases h
      · exact .inl ⟨k + 1, r', hk, by omega, rfl⟩
      · exact .inr ⟨rfl, r', by simp [hr'], hslash, rfl⟩
    · rintro (⟨k, r', hk, rfl, rfl⟩ | ⟨rfl, r', hr', hslash, rfl⟩)
      · cases k with
        | zero =>
          cases hk
          exact .inl rfl
        | succ k => exact .inr (.inr (.inl ⟨k, r', hk, by omega, rfl⟩))
      · rcases List.mem_cons.mp hr' with rfl | hr'
        · exact .inr (.inl (by simp [hslash]))
        · exact .inr (.inr (.inr ⟨rfl, r', hr', hslash, rfl⟩))

/-- The texts of rules are C strings. -/
def NoNul (rs : List (Rule H)) : Prop := ∀ r ∈ rs, 0 ∉ r.rule

theorem proper_numbered {n : Nat} (hn : n ≠ 0) {rs : List (Rule H)} (hrs : NoNul rs) :
    Proper (numbered n rs) := by
  rintro ⟨text, i⟩ hm
  rcases mem_numbered.mp hm with ⟨k, r, hk, rfl, rfl⟩ | ⟨rfl, r, hr, -, rfl⟩
  · exact ⟨by omega, hrs r (List.mem_of_getElem? hk)⟩
  · exact ⟨Nat.one_ne_zero, fun h0 => hrs r hr (List.dropLast_subset _ h0)⟩

/-! ## Setting the router up -/

theorem foldlM_filter {ε σ β : Type} (p : β → Bool) (f : σ → β → Except ε σ) (bs : List β) (s : σ) :
    bs.foldlM (fun s b => if p b then f s b else .ok s) s = (bs.filter p).foldlM f s := by
  induction bs generalizing s with
  | nil => rfl
  | cons b bs ih =>
    cases hb : p b with
    | false =>
      rw [List.filter_cons_of_neg (by simp [hb]), List.foldlM_cons, hb]
      exact ih s
    | true =>
      rw [List.filter_cons_of_pos hb, List.foldlM_cons, List.foldlM_cons, hb, if_pos rfl]
      exact congrArg _ (funext ih)

/-- The rules of a method, in the order of their registration. -/
def rulesOf (rules : List (Rule H)) (m : HTTPMethod) : List (Rule H) :=
  rules.filter fun r => r.hasMethod m

theorem addRule_ok_iff {pm pm' : PerMethod H} {r : Rule H}
    (hlen : pm.rules.length < 2 ^ 16) :
    pm.addRule r = .ok pm' ↔ pm'.rules = pm.rules ++ [some r] ∧
      addAll pm.trie (numbered pm.rules.length [r]) = .ok pm'.trie := by
  have hnumber : ((pm.rules ++ [some r]).length - 1) % 2 ^ 16 = pm.rules.length := by
    rw [List.length_append, List.length_singleton, Nat.add_sub_cancel, Nat.mod_eq_of_lt hlen]
  obtain ⟨rules, trie⟩ := pm'
  rw [PerMethod.addRule]
  simp only [hnumber, numbered, List.append_nil, addAll_cons]
  cases hadd : pm.trie.add r.rule pm.rules.length with
  | error err => simp [bind, Except.bind]
  | ok mid =>
    simp only [bind, Except.bind]
    cases r.hasTrailingSlash with
    | false =>
      simp only [Bool.false_eq_true, if_false, pure, Except.pure, addAll, List.foldlM_nil,
        Except.ok.injEq, PerMethod.mk.injEq]
      exact and_congr eq_comm Iff.rfl
    | true =>
      simp only [if_true, addAll_cons, Except.bind]
      cases mid.add r.rule.dropLast 1 with
      | error err => simp
      | ok last =>
        simp only [pure, Except.pure, addAll, List.foldlM_nil, Except.ok.injEq, PerMethod.mk.injEq]
        exact and_congr eq_comm Iff.rfl

theorem numbered_cons (n : Nat) (r : Rule H) (rs : List (Rule H)) :
    numbered n (r :: rs) = numbered n [r] ++ numbered (n + 1) rs := by
  simp [numbered]

theorem addAll_append (head : Node) (rules rules' : List (Bytes × Nat)) :
    addAll head (rules ++ rules') = (addAll head rules).bind fun head' => addAll head' rules' := by
  rw [addAll, List.foldlM_append]
  rfl

/-- A method's rules go into its list and, numbered by their places, into its trie. -/
theorem addRules_ok_iff {rs : List (Rule H)} {pm pm' : PerMethod H}
    (hlen : pm.rules.length + rs.length ≤ 2 ^ 16) :
    rs.foldlM (fun pm r => pm.addRule r) pm = .ok pm' ↔ pm'.rules = pm.rules ++ rs.map some ∧
      addAll pm.trie (numbered pm.rules.length rs) = .ok pm'.trie := by
  induction rs generalizing pm with
  | nil =>
    obtain ⟨rules, trie⟩ := pm'
    simp only [List.foldlM_nil, pure, Except.pure, Except.ok.injEq, List.map_nil, List.append_nil,
      numbered, addAll]
    constructor
    · rintro rfl
      exact ⟨rfl, rfl⟩
    · rintro ⟨rfl, rfl⟩
      rfl
  | cons r rs ih =>
    rw [List.length_cons] at hlen
    have hr : pm.rules.length < 2 ^ 16 := by omega
    rw [List.foldlM_cons, numbered_cons, addAll_append, List.map_cons]
    constructor
    · intro h
      cases hadd : pm.addRule r with
      | error err => rw [hadd] at h; cases h
      | ok mid =>
        rw [hadd] at h
        obtain ⟨hrules, htrie⟩ := (addRule_ok_iff hr).mp hadd
        have hmid : mid.rules.length = pm.rules.length + 1 := by simp [hrules]
        obtain ⟨hrules', htrie'⟩ := (ih (by omega)).mp h
        rw [htrie, ← hmid]
        exact ⟨by simp [hrules', hrules], htrie'⟩
    · rintro ⟨hrules, htrie⟩
      cases hfirst : addAll pm.trie (numbered pm.rules.length [r]) with
      | error err => rw [hfirst] at htrie; cases htrie
      | ok trie =>
        rw [hfirst] at htrie
        have hadd : pm.addRule r = .ok ⟨pm.rules ++ [some r], trie⟩ :=
          (addRule_ok_iff hr).mpr ⟨rfl, hfirst⟩
        rw [hadd]
        have hrest : addAll trie (numbered (pm.rules.length + 1) rs) = .ok pm'.trie := htrie
        exact (ih (by simp; omega)).mpr ⟨by simp [hrules], by simpa using hrest⟩

/-- A set-up router has, for each method, its rules and the finished trie of them. -/
theorem validate_iff {rules : List (Rule H)} (hlen : rules.length + 2 ≤ 2 ^ 16)
    {router : Router H} :
    Router.validate rules = .ok router ↔ ∀ m,
      (router m).rules = none :: none :: (rulesOf rules m).map some ∧
      buildTrie (numbered 2 (rulesOf rules m)) = .ok (router m).trie := by
  have hlenOf : ∀ m, (PerMethod.new (H := H)).rules.length + (rulesOf rules m).length ≤ 2 ^ 16 := by
    intro m
    have hle := List.length_filter_le (fun r : Rule H => r.hasMethod m) rules
    show 2 + (rules.filter _).length ≤ 2 ^ 16
    omega
  have hadded : ∀ added : Router H,
      rules.foldlM Router.addRuleObject (fun _ => .new) = .ok added ↔ ∀ m,
        (added m).rules = none :: none :: (rulesOf rules m).map some ∧
        addAll .empty (numbered 2 (rulesOf rules m)) = .ok (added m).trie := by
    intro added
    have hloops : rules.foldlM Router.addRuleObject (fun _ => .new) = .ok added ↔ ∀ m,
        rules.foldlM (fun (pm : PerMethod H) r => if r.hasMethod m then pm.addRule r else .ok pm)
          PerMethod.new = .ok (added m) :=
      foldlM_updateEach_iff HTTPMethod.nodup_all HTTPMethod.mem_all
    refine hloops.trans (forall_congr' fun m => ?_)
    rw [foldlM_filter (fun r => r.hasMethod m) (fun (pm : PerMethod H) r => pm.addRule r)]
    exact addRules_ok_iff (hlenOf m)
  rw [Router.validate]
  constructor
  · intro h m
    cases hloop : rules.foldlM Router.addRuleObject fun _ => PerMethod.new with
    | error err => rw [hloop] at h; cases h
    | ok added =>
      have hfinal : updateEach (fun _ pm => PerMethod.validate pm) HTTPMethod.all added =
          .ok router := by rwa [hloop] at h
      obtain ⟨hrules, htrie⟩ := (hadded added).mp hloop m
      have hval := (updateEach_all_iff HTTPMethod.nodup_all HTTPMethod.mem_all).mp hfinal m
      rw [PerMethod.validate] at hval
      rw [buildTrie, htrie]
      cases hv : (added m).trie.validate with
      | error err => rw [hv] at hval; cases hval
      | ok trie =>
        rw [hv] at hval
        rw [← Except.ok.inj hval]
        exact ⟨hrules, hv⟩
  · intro h
    have hmid : ∀ m, ∃ head, addAll .empty (numbered 2 (rulesOf rules m)) = .ok head ∧
        head.validate = .ok (router m).trie := fun m => by
      have hb := (h m).2
      rw [buildTrie] at hb
      cases hadd : addAll .empty (numbered 2 (rulesOf rules m)) with
      | error err => rw [hadd] at hb; cases hb
      | ok head =>
        rw [hadd] at hb
        exact ⟨head, rfl, hb⟩
    obtain ⟨heads, hheads⟩ := Classical.axiomOfChoice hmid
    have hfinal : updateEach (fun _ pm => PerMethod.validate pm) HTTPMethod.all
        (fun m => ⟨none :: none :: (rulesOf rules m).map some, heads m⟩) = .ok router := by
      refine (updateEach_all_iff HTTPMethod.nodup_all HTTPMethod.mem_all).mpr fun m => ?_
      rw [PerMethod.validate, (hheads m).2, ← (h m).1]
      rfl
    rw [(hadded fun m => ⟨none :: none :: (rulesOf rules m).map some, heads m⟩).mpr
      fun m => ⟨rfl, (hheads m).1⟩]
    exact hfinal

/-- When the routes can be set up: for each method every parameter has a known name, no two
texts have the same pattern, the ones without their slash included, and all texts begin with the
same character. -/
theorem validate_ok_iff {rules : List (Rule H)} (hlen : rules.length + 2 ≤ 2 ^ 16)
    (hnul : NoNul rules) :
    (∃ router, Router.validate rules = .ok router) ↔ ∀ m, ∃ ps,
      patterns (numbered 2 (rulesOf rules m)) = some ps ∧ (ps.map Prod.fst).Nodup ∧ SameStart ps := by
  have hproper : ∀ m, Proper (numbered 2 (rulesOf rules m)) := fun m =>
    proper_numbered Nat.two_pos.ne' fun r hr => hnul r (List.mem_of_mem_filter hr)
  constructor
  · rintro ⟨router, hrouter⟩ m
    exact (buildTrie_iff (hproper m)).mp ⟨_, ((validate_iff hlen).mp hrouter m).2⟩
  · intro h
    obtain ⟨tries, htries⟩ := Classical.axiomOfChoice fun m => (buildTrie_iff (hproper m)).mpr (h m)
    exact ⟨fun m => ⟨none :: none :: (rulesOf rules m).map some, tries m⟩,
      (validate_iff hlen).mpr fun m => ⟨rfl, htries m⟩⟩

/-! ## Looking a URL up -/

section Lookup

variable (strtod : Strtod)

/-- The URL matches a rule's text, with these values of its parameters. -/
def Matches (text url : Bytes) (params : RoutingParams) : Prop :=
  ∃ toks values, Node.tokens 0 text = some toks ∧
    matchTokens (paramReader strtod) toks url = some values ∧
    params = RoutingParams.empty.pushAll values

/-- The URL matches a rule that ends with a slash, but for the slash. -/
def Redirects (rs : List (Rule H)) (url : Bytes) : Prop :=
  ∃ r ∈ rs, r.hasTrailingSlash = true ∧ ∃ params, Matches strtod r.rule.dropLast url params

/-- The first rule that the URL matches. -/
def FirstMatch (rs : List (Rule H)) (url : Bytes) (r : Rule H) (params : RoutingParams) : Prop :=
  ∃ before after, rs = before ++ r :: after ∧ Matches strtod r.rule url params ∧
    ∀ r' ∈ before, ∀ params', ¬ Matches strtod r'.rule url params'

/-- The URL matches no rule, with or without its slash. -/
def Unmatched (rs : List (Rule H)) (url : Bytes) : Prop :=
  ¬ Redirects strtod rs url ∧ ∀ r ∈ rs, ∀ params, ¬ Matches strtod r.rule url params

variable {strtod} {url : Bytes} {rs : List (Rule H)}

theorem Matches.unique {text : Bytes} {params params' : RoutingParams}
    (h : Matches strtod text url params) (h' : Matches strtod text url params') :
    params = params' := by
  obtain ⟨toks, values, htoks, hmatch, rfl⟩ := h
  obtain ⟨toks', values', htoks', hmatch', rfl⟩ := h'
  obtain rfl := Option.some.inj (htoks.symm.trans htoks')
  rw [Option.some.inj (hmatch.symm.trans hmatch')]

theorem FirstMatch.mem {r : Rule H} {params : RoutingParams}
    (h : FirstMatch strtod rs url r params) : r ∈ rs ∧ Matches strtod r.rule url params := by
  obtain ⟨before, after, rfl, hmatch, -⟩ := h
  exact ⟨by simp, hmatch⟩

theorem FirstMatch.unique {r r' : Rule H} {params params' : RoutingParams}
    (h : FirstMatch strtod rs url r params) (h' : FirstMatch strtod rs url r' params') :
    r = r' ∧ params = params' := by
  obtain ⟨before, after, rfl, hmatch, hbefore⟩ := h
  obtain ⟨before', after', heq, hmatch', hbefore'⟩ := h'
  -- neither rule stands in front of the other one
  have hr : r = r' := by
    rcases List.append_eq_append_iff.mp heq with ⟨mid, hmid, hrest⟩ | ⟨mid, hmid, hrest⟩
    · cases mid with
      | nil => exact (List.cons.inj hrest).1
      | cons x mid =>
        obtain ⟨rfl, -⟩ := List.cons.inj hrest
        exact absurd hmatch (hbefore' r (by simp [hmid]) params)
    · cases mid with
      | nil => exact (List.cons.inj hrest).1.symm
      | cons x mid =>
        obtain ⟨rfl, -⟩ := List.cons.inj hrest
        exact absurd hmatch' (hbefore r' (by simp [hmid]) params')
  subst hr
  exact ⟨rfl, hmatch.unique hmatch'⟩

/-- What the patterns of texts offer. -/
theorem mem_offers_iff {rules : List (Bytes × Nat)} {ps : List (List Tok × Nat)}
    (hps : patterns rules = some ps) {x : Nat × RoutingParams} :
    x ∈ Node.offers strtod ps url .empty ↔
      ∃ text, (text, x.1) ∈ rules ∧ Matches strtod text url x.2 := by
  have hmem : ∀ toks i, (toks, i) ∈ ps ↔ ∃ text, (text, i) ∈ rules ∧
      Node.tokens 0 text = some toks := by
    intro toks i
    induction rules generalizing ps with
    | nil =>
      cases hps
      simp
    | cons rule rules ih =>
      obtain ⟨toks', qs, htoks, hqs, rfl⟩ := patterns_cons.mp hps
      rw [List.mem_cons, ih hqs]
      constructor
      · rintro (h | ⟨text, hm, ht⟩)
        · obtain ⟨rfl, rfl⟩ := Prod.mk.inj h
          exact ⟨rule.1, by simp, htoks⟩
        · exact ⟨text, by simp [hm], ht⟩
      · rintro ⟨text, hm, ht⟩
        rcases List.mem_cons.mp hm with rfl | hm
        · rw [Option.some.inj (ht.symm.trans htoks)]
          exact .inl rfl
        · exact .inr ⟨text, hm, ht⟩
  constructor
  · rintro ⟨toks, values, hm, hmatch, hx⟩
    obtain ⟨text, htext, htoks⟩ := (hmem _ _).mp hm
    exact ⟨text, htext, toks, values, htoks, hmatch, hx⟩
  · rintro ⟨text, htext, toks, values, htoks, hmatch, hx⟩
    exact ⟨toks, values, (hmem _ _).mpr ⟨text, htext, htoks⟩, hmatch, hx⟩

/-- What a method's trie finds, by the number. -/
structure Found (strtod : Strtod) (rs : List (Rule H)) (url : Bytes) (found : Nat × RoutingParams) :
    Prop where
  zero : found.1 = 0 ↔ Unmatched strtod rs url
  one : found.1 = 1 ↔ Redirects strtod rs url
  rule : 2 ≤ found.1 → ∃ r, rs[found.1 - 2]? = some r ∧ FirstMatch strtod rs url r found.2

theorem found_of_buildTrie (hnul : NoNul rs) {trie : Node}
    (htrie : buildTrie (numbered 2 rs) = .ok trie) (url : Bytes) :
    Found strtod rs url (trie.find strtod url .empty) := by
  obtain ⟨ps, hps, hfind⟩ := buildTrie_find (proper_numbered Nat.two_pos.ne' hnul) htrie
  have hleast := hfind strtod url
  generalize trie.find strtod url .empty = found at hleast
  have hrule : ∀ k r params, rs[k]? = some r → Matches strtod r.rule url params →
      found.1 ≠ 0 ∧ found.1 ≤ 2 + k := fun k r params hk hmatch =>
    hleast.least (2 + k, params) ((mem_offers_iff hps).mpr
      ⟨r.rule, mem_numbered.mpr (.inl ⟨k, r, hk, rfl, rfl⟩), hmatch⟩)
  have hslash : Redirects strtod rs url → found.1 ≠ 0 ∧ found.1 ≤ 1 := by
    rintro ⟨r, hr, hs, params, hmatch⟩
    exact hleast.least (1, params) ((mem_offers_iff hps).mpr
      ⟨_, mem_numbered.mpr (.inr ⟨rfl, r, hr, hs, rfl⟩), hmatch⟩)
  have hsource : found.1 ≠ 0 → (∃ k r, rs[k]? = some r ∧ found.1 = 2 + k ∧
      Matches strtod r.rule url found.2) ∨ (found.1 = 1 ∧ Redirects strtod rs url) := fun hne => by
    obtain ⟨text, htext, hmatch⟩ := (mem_offers_iff hps).mp (hleast.found hne)
    rcases mem_numbered.mp htext with ⟨k, r, hk, hi, rfl⟩ | ⟨hi, r, hr, hs, rfl⟩
    · exact .inl ⟨k, r, hk, hi, hmatch⟩
    · exact .inr ⟨hi, r, hr, hs, _, hmatch⟩
  refine ⟨⟨fun h0 => ⟨fun hred => (hslash hred).1 h0, fun r hr params hmatch => ?_⟩, fun hun => ?_⟩,
    ⟨fun h1 => ?_, fun hred => ?_⟩, fun h2 => ?_⟩
  · obtain ⟨k, hk⟩ := List.getElem?_of_mem hr
    exact (hrule k r params hk hmatch).1 h0
  · by_contra hne
    rcases hsource hne with ⟨k, r, hk, -, hmatch⟩ | ⟨-, hred⟩
    · exact hun.2 r (List.mem_of_getElem? hk) _ hmatch
    · exact hun.1 hred
  · rcases hsource (by omega) with ⟨k, r, -, hi, -⟩ | ⟨-, hred⟩
    · omega
    · exact hred
  · have h1 := hslash hred
    omega
  · rcases hsource (by omega) with ⟨k, r, hk, hi, hmatch⟩ | ⟨hi, -⟩
    · have hk' : found.1 - 2 = k := by omega
      obtain ⟨hklt, hget⟩ := List.getElem?_eq_some_iff.mp hk
      refine ⟨r, by rwa [hk'], rs.take k, rs.drop (k + 1), ?_, hmatch, fun r' hr' params' hm' => ?_⟩
      · rw [← hget, List.getElem_cons_drop, List.take_append_drop]
      · obtain ⟨j, hj⟩ := List.getElem?_of_mem hr'
        have hjk : j < k := by
          have hlt := (List.getElem?_eq_some_iff.mp hj).1
          rw [List.length_take] at hlt
          omega
        rw [List.getElem?_take_of_lt hjk] at hj
        have hle := (hrule j r' params' hj hm').2
        omega
    · omega

theorem Found.run_iff {found : Nat × RoutingParams} (hf : Found strtod rs url found) {r : Rule H}
    {params : RoutingParams} :
    (2 ≤ found.1 ∧ rs[found.1 - 2]? = some r ∧ found.2 = params) ↔
      ¬ Redirects strtod rs url ∧ FirstMatch strtod rs url r params := by
  constructor
  · rintro ⟨h2, hr, rfl⟩
    obtain ⟨r', hr', hfirst⟩ := hf.rule h2
    obtain rfl := Option.some.inj (hr.symm.trans hr')
    exact ⟨fun hred => absurd (hf.one.mpr hred) (by omega), hfirst⟩
  · rintro ⟨hred, hfirst⟩
    have hne0 : found.1 ≠ 0 := fun h0 => (hf.zero.mp h0).2 r hfirst.mem.1 params hfirst.mem.2
    have hne1 : found.1 ≠ 1 := fun h1 => hred (hf.one.mp h1)
    obtain ⟨r', hr', hfirst'⟩ := hf.rule (by omega)
    obtain ⟨rfl, rfl⟩ := hfirst.unique hfirst'
    exact ⟨by omega, hr', rfl⟩

end Lookup

/-! ## The decision -/

/-- `HEAD` is answered by the rules of `GET`. -/
def actual (m : HTTPMethod) : HTTPMethod := if m = .head then .get else m

/-- What becomes of a request, in terms of the registered rules. -/
inductive Decides (strtod : Strtod) (rules : List (Rule H)) (method : HTTPMethod) (url : Bytes) :
    Decision H → Prop
  | run {r : Rule H} {params : RoutingParams} (hm : method ≠ .options)
      (hred : ¬ Redirects strtod (rulesOf rules (actual method)) url)
      (hfirst : FirstMatch strtod (rulesOf rules (actual method)) url r params) :
      Decides strtod rules method url (.run r params)
  | redirect (hm : method ≠ .options)
      (hred : Redirects strtod (rulesOf rules (actual method)) url) :
      Decides strtod rules method url .redirect
  | methodNotAllowed (hm : method ≠ .options)
      (hun : Unmatched strtod (rulesOf rules (actual method)) url) {m : HTTPMethod}
      (hother : ¬ Unmatched strtod (rulesOf rules m) url) :
      Decides strtod rules method url .methodNotAllowed
  | notFound (hm : method = .options → url ≠ ofString "/*")
      (hun : ∀ m, Unmatched strtod (rulesOf rules m) url) :
      Decides strtod rules method url .notFound
  | allow {matched : HTTPMethod → Bool} (hm : method = .options) (hurl : url ≠ ofString "/*")
      (hmatched : ∀ m, matched m = true ↔ ¬ Unmatched strtod (rulesOf rules m) url)
      {m : HTTPMethod} (hsome : matched m = true) :
      Decides strtod rules method url (.allow (allowText (HTTPMethod.all.filter matched)))
  | allowAll (hm : method = .options) (hurl : url = ofString "/*") :
      Decides strtod rules method url
        (.allow (allowText (HTTPMethod.all.filter fun m => !(rulesOf rules m).isEmpty)))

variable {strtod : Strtod} {rules : List (Rule H)} {router : Router H} {method : HTTPMethod}
  {url : Bytes}

/-- A finished trie is empty when nothing has been added. -/
theorem children_of_buildTrie {rs : List (Rule H)} (hnul : NoNul rs) {trie : Node}
    (htrie : buildTrie (numbered 2 rs) = .ok trie) : trie.children.isEmpty = rs.isEmpty := by
  have hproper := proper_numbered (n := 2) Nat.two_pos.ne' hnul
  cases hadd : addAll .empty (numbered 2 rs) with
  | error err => rw [buildTrie, hadd] at htrie; cases htrie
  | ok head =>
    have hval : head.validate = .ok trie := by rwa [buildTrie, hadd] at htrie
    obtain ⟨ps, hps, hholds, -⟩ := addAll_ok hproper holds_empty (by simp) hadd
    have hpos := number_of_patterns hproper hps
    obtain ⟨i, key, param, children⟩ := head
    unfold Node.validate at hval
    split at hval
    · next hsimple =>
      rw [← Except.ok.inj hval, Node.children_node, Node.children_node]
      have hzero : i = 0 := by simp [Node.isSimpleNode] at hsimple; omega
      subst hzero
      cases rs with
      | nil =>
        cases hadd
        rfl
      | cons r rs =>
        obtain ⟨toks, qs, -, -, rfl⟩ := patterns_cons.mp hps
        cases children with
        | nil =>
          have he := (hholds.entries (toks, 2)).mpr (by simp)
          simp [Node.entries, Node.entriesAmong] at he
        | cons c cs => rfl
    · cases hval

/-- A rule stands in the list behind the two empty places. -/
theorem getD_rules (rs : List (Rule H)) {n : Nat} (hn : 2 ≤ n) :
    (none :: none :: rs.map some).getD n none = rs[n - 2]? := by
  obtain ⟨k, rfl⟩ : ∃ k, n = k + 2 := ⟨n - 2, by omega⟩
  rw [List.getD_cons_succ, List.getD_cons_succ, List.getD_eq_getElem?_getD, List.getElem?_map,
    Nat.add_sub_cancel]
  cases rs[k]? <;> rfl

/-- A router that has been set up with the rules. -/
structure Ready (rules : List (Rule H)) (router : Router H) : Prop where
  table : ∀ m, (router m).rules = none :: none :: (rulesOf rules m).map some
  found : ∀ strtod m url,
    Found strtod (rulesOf rules m) url ((router m).trie.find strtod url .empty)
  empty : ∀ m, (router m).trie.children.isEmpty = (rulesOf rules m).isEmpty

theorem ready_of_validate (hlen : rules.length + 2 ≤ 2 ^ 16) (hnul : NoNul rules)
    (hrouter : Router.validate rules = .ok router) : Ready rules router := by
  have hset := (validate_iff hlen).mp hrouter
  have hnulOf : ∀ m, NoNul (rulesOf rules m) := fun m r hr => hnul r (List.mem_of_mem_filter hr)
  exact ⟨fun m => (hset m).1, fun strtod m url => found_of_buildTrie (hnulOf m) (hset m).2 url,
    fun m => children_of_buildTrie (hnulOf m) (hset m).2⟩

namespace Ready

theorem findIndex_iff (hr : Ready rules router) (m : HTTPMethod) :
    (router.findIndex strtod url m != 0) = true ↔ ¬ Unmatched strtod (rulesOf rules m) url := by
  rw [← (hr.found strtod m url).zero]
  simp [Router.findIndex]

/-- Some method's trie finds something. -/
theorem any_findIndex_iff (hr : Ready rules router) :
    (HTTPMethod.all.any fun m => router.findIndex strtod url m != 0) = true ↔
      ∃ m, ¬ Unmatched strtod (rulesOf rules m) url := by
  rw [List.any_eq_true]
  constructor
  · rintro ⟨m, -, hm⟩
    exact ⟨m, hr.findIndex_iff m |>.mp hm⟩
  · rintro ⟨m, hm⟩
    exact ⟨m, HTTPMethod.mem_all m, hr.findIndex_iff m |>.mpr hm⟩

/-- The methods that have rules. -/
theorem methods_eq (hr : Ready rules router) :
    (HTTPMethod.all.filter fun m => !(router m).trie.children.isEmpty) =
      HTTPMethod.all.filter fun m => !(rulesOf rules m).isEmpty :=
  List.filter_congr fun m _ => by rw [hr.empty]

/-- The branches of `handle` for a method with rules of its own. -/
theorem handle_eq (hr : Ready rules router) (hm : method ≠ .options) :
    router.handle strtod method url =
      let found := (router (actual method)).trie.find strtod url .empty
      if found.1 = 0 then
        if HTTPMethod.all.any fun m => router.findIndex strtod url m != 0 then .methodNotAllowed
        else .notFound
      else if (rulesOf rules (actual method)).length + 2 ≤ found.1 then .corrupted
      else if found.1 = 1 then .redirect
      else
        match (none :: none :: (rulesOf rules (actual method)).map some).getD found.1 none with
        | none => .nullRule
        | some rule => .run rule found.2 := by
  have hsize : (none :: none :: (rulesOf rules (actual method)).map some).length =
      (rulesOf rules (actual method)).length + 2 := by simp
  rw [Router.handle, if_neg hm, ← hsize, ← hr.table]
  rfl

theorem decides_options (hr : Ready rules router) :
    Decides strtod rules .options url (router.handle strtod .options url) := by
  rw [Router.handle, if_pos rfl]
  by_cases hurl : url = ofString "/*"
  · rw [if_pos hurl, hr.methods_eq]
    exact .allowAll rfl hurl
  · rw [if_neg hurl]
    cases hms : HTTPMethod.all.filter fun m => router.findIndex strtod url m != 0 with
    | nil =>
      refine .notFound (fun _ => hurl) fun m => ?_
      by_contra hun
      have hmem : m ∈ HTTPMethod.all.filter fun m => router.findIndex strtod url m != 0 :=
        List.mem_filter.mpr ⟨HTTPMethod.mem_all m, (hr.findIndex_iff m).mpr hun⟩
      rw [hms] at hmem
      cases hmem
    | cons m ms =>
      have hmem : m ∈ HTTPMethod.all.filter fun m => router.findIndex strtod url m != 0 := by
        simp [hms]
      have hdec : Decides strtod rules .options url (.allow (allowText
          (HTTPMethod.all.filter fun m => router.findIndex strtod url m != 0))) :=
        .allow rfl hurl hr.findIndex_iff (List.mem_filter.mp hmem).2
      rwa [hms] at hdec

theorem decides_lookup (hr : Ready rules router) (hm : method ≠ .options) :
    Decides strtod rules method url (router.handle strtod method url) := by
  have hact := hr.found strtod (actual method) url
  rw [hr.handle_eq hm]
  generalize (router (actual method)).trie.find strtod url .empty = found at hact
  dsimp only
  by_cases h0 : found.1 = 0
  · rw [if_pos h0]
    split
    · next hother =>
      obtain ⟨m, hother⟩ := hr.any_findIndex_iff.mp hother
      exact .methodNotAllowed hm (hact.zero.mp h0) hother
    · next hother =>
      refine .notFound (fun h => absurd h hm) fun m => ?_
      by_contra hun
      exact hother (hr.any_findIndex_iff.mpr ⟨m, hun⟩)
  · rw [if_neg h0]
    by_cases h1 : found.1 = 1
    · rw [if_neg (by omega), if_pos h1]
      exact .redirect hm (hact.one.mp h1)
    · obtain ⟨r, hget, hfirst⟩ := hact.rule (by omega)
      have hlt := (List.getElem?_eq_some_iff.mp hget).1
      rw [if_neg (by omega), if_neg h1, getD_rules _ (by omega), hget]
      exact .run hm (hact.run_iff.mp ⟨by omega, hget, rfl⟩).1 hfirst

/-- What the rules decide is what the router does. -/
theorem handle_of_decides (hr : Ready rules router) {d : Decision H}
    (h : Decides strtod rules method url d) : router.handle strtod method url = d := by
  have hact := hr.found strtod (actual method) url
  cases h with
  | @run r params hm hred hfirst =>
    obtain ⟨h2, hget, hparams⟩ := hact.run_iff.mpr ⟨hred, hfirst⟩
    have hlt := (List.getElem?_eq_some_iff.mp hget).1
    rw [hr.handle_eq hm]
    dsimp only
    rw [if_neg (by omega), if_neg (by omega), if_neg (by omega), getD_rules _ h2, hget, hparams]
  | redirect hm hred =>
    have h1 := hact.one.mpr hred
    rw [hr.handle_eq hm]
    dsimp only
    rw [if_neg (by omega), if_neg (by omega), if_pos h1]
  | methodNotAllowed hm hun hother =>
    rw [hr.handle_eq hm]
    dsimp only
    rw [if_pos (hact.zero.mpr hun), if_pos (hr.any_findIndex_iff.mpr ⟨_, hother⟩)]
  | notFound hurl hun =>
    have hnone : ¬ ∃ m, ¬ Unmatched strtod (rulesOf rules m) url := fun ⟨m, hm⟩ => hm (hun m)
    by_cases hm : method = .options
    · rw [Router.handle, if_pos hm, if_neg (hurl hm)]
      have hnil : HTTPMethod.all.filter (fun m => router.findIndex strtod url m != 0) = [] :=
        List.filter_eq_nil_iff.mpr fun m _ hindexed => (hr.findIndex_iff m).mp hindexed (hun m)
      rw [hnil]
    · rw [hr.handle_eq hm]
      dsimp only
      rw [if_pos (hact.zero.mpr (hun _)), if_neg fun h => hnone (hr.any_findIndex_iff.mp h)]
  | @allow matched hm hurl hmatched m hsome =>
    have hsame : (fun m => router.findIndex strtod url m != 0) = matched := funext fun m =>
      Bool.eq_iff_iff.mpr ((hr.findIndex_iff m).trans (hmatched m).symm)
    have hmem : m ∈ HTTPMethod.all.filter matched :=
      List.mem_filter.mpr ⟨HTTPMethod.mem_all m, hsome⟩
    rw [Router.handle, if_pos hm, if_neg hurl, hsame]
    cases hms : HTTPMethod.all.filter matched with
    | nil =>
      rw [hms] at hmem
      cases hmem
    | cons m' ms => rfl
  | allowAll hm hurl => rw [Router.handle, if_pos hm, if_pos hurl, hr.methods_eq]

end Ready

/-- The decision of a router that has been set up. -/
theorem handle_iff (hlen : rules.length + 2 ≤ 2 ^ 16) (hnul : NoNul rules)
    (hrouter : Router.validate rules = .ok router) (d : Decision H) :
    router.handle strtod method url = d ↔ Decides strtod rules method url d := by
  have hr := ready_of_validate hlen hnul hrouter
  constructor
  · rintro rfl
    by_cases hm : method = .options
    · subst hm
      exact hr.decides_options
    · exact hr.decides_lookup hm
  · exact hr.handle_of_decides

/-- **The router decides by the rules.** Rules can be set up exactly when, for each method, every
parameter has a known name, no two texts have the same pattern, the ones without their slash
included, and all begin with the same character. Then each request is decided by them alone: the first
registered rule that matches runs, a missing slash redirects, another method's match refuses the
method, and the rest is not found. -/
theorem router_decides (hlen : rules.length + 2 ≤ 2 ^ 16) (hnul : NoNul rules) :
    ((∃ router, Router.validate rules = .ok router) ↔ ∀ m, ∃ ps,
      patterns (numbered 2 (rulesOf rules m)) = some ps ∧ (ps.map Prod.fst).Nodup ∧
        SameStart ps) ∧
    ∀ router, Router.validate rules = .ok router → ∀ strtod method url d,
      router.handle strtod method url = d ↔ Decides strtod rules method url d :=
  ⟨validate_ok_iff hlen hnul, fun _ hrouter _ _ _ => handle_iff hlen hnul hrouter⟩

/-- Three rules for `GET`, the last with a trailing slash. -/
def users : List (Rule Nat) :=
  [⟨ofString "/users/<int>", 1#32 <<< HTTPMethod.get.toNat, 0⟩,
    ⟨ofString "/users/me", 1#32 <<< HTTPMethod.get.toNat, 1⟩,
    ⟨ofString "/users/", 1#32 <<< HTTPMethod.get.toNat, 2⟩]

/-- They can be set up, and `HEAD` of the last without its slash is redirected. -/
theorem router_decides_users : ∃ router, Router.validate users = .ok router ∧
    ∀ strtod, router.handle strtod .head (ofString "/users") = .redirect := by
  have hnul : NoNul users := by
    unfold NoNul users
    decide
  obtain ⟨hset, hdecides⟩ := router_decides (by decide) hnul
  have hpatterns : ∀ m, ∃ ps, patterns (numbered 2 (rulesOf users m)) = some ps ∧
      (ps.map Prod.fst).Nodup ∧ SameStart ps := fun m => by
    cases m with
    | get =>
      refine ⟨_, rfl, by decide, '/'.toUInt8, ?_⟩
      decide
    | _ => exact ⟨[], rfl, by simp, 0, by simp⟩
  obtain ⟨router, hrouter⟩ := hset.mpr hpatterns
  refine ⟨router, hrouter, fun strtod => (hdecides router hrouter strtod _ _ _).mpr ?_⟩
  have hlast : (⟨ofString "/users/", 1#32 <<< HTTPMethod.get.toNat, 2⟩ : Rule Nat) ∈
      rulesOf users (actual .head) :=
    List.mem_filter.mpr ⟨by simp [users], by decide⟩
  have hmatch : Matches strtod (ofString "/users") (ofString "/users") .empty :=
    ⟨(ofString "/users").map .lit, [], rfl, rfl, rfl⟩
  exact .redirect (by decide) ⟨_, hlast, by decide, .empty, hmatch⟩

end LockFreeKV.Crow
