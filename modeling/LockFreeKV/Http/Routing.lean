import LockFreeKV.Crow.Routing
import LockFreeKV.Http.Handlers

/-!
# The routes of the application

`resource` reads off a URL what it names. The routes can be set up, and the router sends each
request to the handler of the named resource, redirects the directory without its slash, and
refuses everything else with 404 or 405. Only a segment in the form of `RawSegment`, up to its
length, is ever handed to the handlers of a record.
-/
namespace LockFreeKV.Http

open LockFreeKV.Lib LockFreeKV.Crow

/-- The handlers, by their routes. -/
inductive Handler
  | getRecord
  | postRecord
  | itemListing
  | statisticsReads
  | helloWorld
  | staticFile
  deriving DecidableEq, Repr

/-- `methods`, and the methods of a rule without it. -/
def methodBit (m : HTTPMethod) : BitVec 32 := 1#32 <<< m.toNat

namespace Handler

/-- The text of the handler's route. -/
def text : Handler → String
  | .getRecord => "/api/records/<string>"
  | .postRecord => "/api/records/<string>"
  | .itemListing => "/api/records/"
  | .statisticsReads => "/api/statistics/reads"
  | .helloWorld => "/"
  | .staticFile => "/static/<path>"

def method : Handler → HTTPMethod
  | .postRecord => .post
  | _ => .get

def rule (h : Handler) : Rule Handler := ⟨ofString h.text, methodBit h.method, h⟩

end Handler

/-- The routes of `setup_routing`, and the one that `Crow::validate` adds. -/
def routes : List (Rule Handler) :=
  [.getRecord, .postRecord, .itemListing, .statisticsReads, .helloWorld, .staticFile].map
    Handler.rule

/-- What a URL names. -/
inductive Resource
  | record (nameRaw : Bytes)
  | recordsDirectory
  | itemListing
  | statisticsReads
  | root
  | staticFile (path : Bytes)
  deriving DecidableEq, Repr

def resource (url : Bytes) : Option Resource :=
  if url = ofString "/" then some .root
  else if url = ofString "/api/records" then some .recordsDirectory
  else if url = ofString "/api/statistics/reads" then some .statisticsReads
  else
    match url.dropPrefix? (ofString "/api/records/") with
    | some [] => some .itemListing
    | some (c :: cs) => if '/'.toUInt8 ∈ c :: cs then none else some (.record (c :: cs))
    | none =>
      match url.dropPrefix? (ofString "/static/") with
      | some (c :: cs) => some (.staticFile (c :: cs))
      | _ => none

/-! ## The texts of the routes -/

section Texts

variable {strtod : Strtod} {text key url : Bytes} {params : RoutingParams}

/-- The values of string parameters. -/
def strings (texts : List Bytes) : RoutingParams := ⟨[], [], [], texts⟩

theorem matches_lits (htext : Node.tokens 0 text = some (key.map .lit)) :
    Matches strtod text url params ↔ url = key ∧ params = strings [] := by
  have hmatch : ∀ values, matchTokens (paramReader strtod) (key.map .lit) url = some values ↔
      url = key ∧ values = [] := by
    intro values
    rw [← List.append_nil (key.map _), matchTokens_lits]
    constructor
    · rintro ⟨rest, rfl, hrest⟩
      obtain ⟨rfl, rfl⟩ := (matchTokens_nil_iff _).mp hrest
      exact ⟨by simp, rfl⟩
    · rintro ⟨rfl, rfl⟩
      exact ⟨[], by simp, rfl⟩
  constructor
  · rintro ⟨toks, values, htoks, hvalues, rfl⟩
    obtain rfl := Option.some.inj (htoks.symm.trans htext)
    obtain ⟨rfl, rfl⟩ := (hmatch values).mp hvalues
    exact ⟨rfl, rfl⟩
  · rintro ⟨rfl, rfl⟩
    exact ⟨_, [], htext, (hmatch []).mpr ⟨rfl, rfl⟩, rfl⟩

/-- A text that ends with a parameter matches a URL whose rest the parameter reads. -/
theorem matches_lits_param (key : Bytes) (p : ParamType)
    (htext : Node.tokens 0 text = some (key.map .lit ++ [.param p])) :
    Matches strtod text url params ↔ ∃ rest value, url = key ++ rest ∧
      readParam strtod p rest = some (value, []) ∧ params = RoutingParams.empty.push value := by
  have hmatch : ∀ values,
      matchTokens (paramReader strtod) (key.map .lit ++ [.param p]) url = some values ↔
        ∃ rest value, url = key ++ rest ∧ readParam strtod p rest = some (value, []) ∧
          values = [value] := by
    intro values
    rw [matchTokens_lits]
    constructor
    · rintro ⟨rest, rfl, hrest⟩
      obtain ⟨value, rest', values', hread, hnil, rfl⟩ := (matchTokens_param _).mp hrest
      obtain ⟨rfl, rfl⟩ := (matchTokens_nil_iff _).mp hnil
      exact ⟨rest, value, rfl, hread, rfl⟩
    · rintro ⟨rest, value, rfl, hread, rfl⟩
      exact ⟨rest, rfl, (matchTokens_param _).mpr ⟨value, [], [], hread, rfl, rfl⟩⟩
  constructor
  · rintro ⟨toks, values, htoks, hvalues, rfl⟩
    obtain rfl := Option.some.inj (htoks.symm.trans htext)
    obtain ⟨rest, value, rfl, hread, rfl⟩ := (hmatch values).mp hvalues
    exact ⟨rest, value, rfl, hread, rfl⟩
  · rintro ⟨rest, value, rfl, hread, rfl⟩
    exact ⟨_, [value], htext, (hmatch _).mpr ⟨rest, value, rfl, hread, rfl⟩, rfl⟩

/-- A string parameter reads a whole text that is not empty and has no slash. -/
theorem readParam_string_all {value : ParamValue} :
    readParam strtod .string text = some (value, []) ↔
      text ≠ [] ∧ '/'.toUInt8 ∉ text ∧ value = .string text := by
  cases text with
  | nil => simp [readParam]
  | cons c cs =>
    have hall : (c :: cs).dropWhile (· ≠ '/'.toUInt8) = [] ↔ '/'.toUInt8 ∉ c :: cs := by
      rw [List.dropWhile_eq_nil_iff]
      simp only [ne_eq, decide_not, Bool.not_eq_true', decide_eq_false_iff_not]
      exact ⟨fun h hm => h _ hm rfl, fun h x hx heq => h (heq ▸ hx)⟩
    have hself : '/'.toUInt8 ∉ c :: cs → (c :: cs).takeWhile (· ≠ '/'.toUInt8) = c :: cs := by
      intro h
      have happ := List.takeWhile_append_dropWhile (p := (· ≠ '/'.toUInt8)) (l := c :: cs)
      rwa [hall.mpr h, List.append_nil] at happ
    constructor
    · intro h
      rw [readParam] at h
      split at h
      · cases h
      · next htake =>
        obtain ⟨rfl, hdrop⟩ := Prod.mk.inj (Option.some.inj h)
        have hno := hall.mp hdrop
        rw [hself hno]
        exact ⟨by simp, hno, rfl⟩
    · rintro ⟨-, hno, rfl⟩
      rw [readParam, hself hno]
      exact congrArg some (Prod.ext rfl (hall.mpr hno))

theorem readParam_path_all {value : ParamValue} :
    readParam strtod .path text = some (value, []) ↔ text ≠ [] ∧ value = .string text := by
  cases text with
  | nil => simp [readParam]
  | cons c cs =>
    simp only [readParam, Option.some.injEq, Prod.mk.injEq, and_true, ne_eq, reduceCtorEq,
      not_false_eq_true, true_and]
    exact eq_comm

end Texts

/-! ## Resources and routes -/

theorem dropPrefix?_eq_some {url key rest : Bytes} :
    url.dropPrefix? key = some rest ↔ url = key ++ rest := by
  rw [List.dropPrefix?_eq_some_iff]
  simp

/-- A text that does not begin with the key is no continuation of it. -/
theorem append_ne {key rest text : Bytes} (h : key.isPrefixOf text = false) : key ++ rest ≠ text := by
  rintro rfl
  rw [List.isPrefixOf_iff_prefix.mpr (List.prefix_append key rest)] at h
  cases h

/-- Two keys of which neither begins with the other have no common continuation. -/
theorem append_ne_append {key key' rest rest' : Bytes} (h : key.isPrefixOf key' = false)
    (h' : key'.isPrefixOf key = false) : key ++ rest ≠ key' ++ rest' := by
  intro heq
  rcases List.append_eq_append_iff.mp heq with ⟨mid, rfl, -⟩ | ⟨mid, rfl, -⟩
  · rw [List.isPrefixOf_iff_prefix.mpr (List.prefix_append key mid)] at h
    cases h
  · rw [List.isPrefixOf_iff_prefix.mpr (List.prefix_append key' mid)] at h'
    cases h'

/-- The URL of a resource. -/
def Resource.url : Resource → Bytes
  | .record nameRaw => ofString "/api/records/" ++ nameRaw
  | .recordsDirectory => ofString "/api/records"
  | .itemListing => ofString "/api/records/"
  | .statisticsReads => ofString "/api/statistics/reads"
  | .root => ofString "/"
  | .staticFile path => ofString "/static/" ++ path

/-- A record has a name without a slash, and a file a path. -/
def Resource.Valid : Resource → Prop
  | .record nameRaw => nameRaw ≠ [] ∧ '/'.toUInt8 ∉ nameRaw
  | .staticFile path => path ≠ []
  | _ => True

theorem resource_iff {url : Bytes} {res : Resource} :
    resource url = some res ↔ res.Valid ∧ url = res.url := by
  constructor
  · intro h
    unfold resource at h
    split at h
    · next hurl => cases h; exact ⟨trivial, hurl⟩
    split at h
    · next hurl => cases h; exact ⟨trivial, hurl⟩
    split at h
    · next hurl => cases h; exact ⟨trivial, hurl⟩
    split at h
    · next hdrop =>
      cases h
      exact ⟨trivial, by simpa [Resource.url] using dropPrefix?_eq_some.mp hdrop⟩
    · next c cs hdrop =>
      split at h
      · cases h
      · next hno =>
        cases h
        exact ⟨⟨by simp, hno⟩, dropPrefix?_eq_some.mp hdrop⟩
    · split at h
      · next c cs hdrop =>
        cases h
        exact ⟨by simp [Resource.Valid], dropPrefix?_eq_some.mp hdrop⟩
      · cases h
  · rintro ⟨hvalid, rfl⟩
    cases res with
    | root => rfl
    | recordsDirectory => rfl
    | statisticsReads => rfl
    | itemListing => rfl
    | record nameRaw =>
      obtain ⟨hne, hno⟩ := hvalid
      have hdrop : (ofString "/api/records/" ++ nameRaw).dropPrefix? (ofString "/api/records/") =
          some nameRaw := dropPrefix?_eq_some.mpr rfl
      rw [Resource.url, resource, if_neg (append_ne rfl), if_neg (append_ne rfl),
        if_neg (append_ne rfl), hdrop]
      cases nameRaw with
      | nil => exact absurd rfl hne
      | cons c cs => exact if_neg hno
    | staticFile path =>
      have hdrop : (ofString "/static/" ++ path).dropPrefix? (ofString "/static/") = some path :=
        dropPrefix?_eq_some.mpr rfl
      have hnone : (ofString "/static/" ++ path).dropPrefix? (ofString "/api/records/") = none := by
        by_contra hsome
        obtain ⟨rest, hrest⟩ := Option.ne_none_iff_exists'.mp hsome
        exact append_ne_append rfl rfl (dropPrefix?_eq_some.mp hrest)
      rw [Resource.url, resource, if_neg (append_ne rfl), if_neg (append_ne rfl),
        if_neg (append_ne rfl), hnone, hdrop]
      cases path with
      | nil => exact absurd rfl hvalid
      | cons c cs => rfl

/-! ## The routes -/

/-- The resource that a handler serves, with the parameters it is given. -/
def Handler.serves : Handler → Resource → Option RoutingParams
  | .getRecord, .record nameRaw => some (strings [nameRaw])
  | .postRecord, .record nameRaw => some (strings [nameRaw])
  | .itemListing, .itemListing => some (strings [])
  | .statisticsReads, .statisticsReads => some (strings [])
  | .helloWorld, .root => some (strings [])
  | .staticFile, .staticFile path => some (strings [path])
  | _, _ => none

section Routes

variable {strtod : Strtod} {url : Bytes} {params : RoutingParams} {m : HTTPMethod}

/-- A route's text without a parameter names one resource. -/
theorem matches_fixed {h : Handler} (res : Resource) (hvalid : res.Valid)
    (htext : Node.tokens 0 (ofString h.text) = some (res.url.map .lit))
    (hserves : ∀ res', h.serves res' = some params ↔ res' = res ∧ params = strings []) :
    Matches strtod (ofString h.text) url params ↔
      ∃ res, resource url = some res ∧ h.serves res = some params := by
  rw [matches_lits htext]
  constructor
  · rintro ⟨hurl, rfl⟩
    exact ⟨res, resource_iff.mpr ⟨hvalid, hurl⟩, (hserves res).mpr ⟨rfl, rfl⟩⟩
  · rintro ⟨res', hres, hs⟩
    obtain ⟨rfl, rfl⟩ := (hserves res').mp hs
    exact ⟨(resource_iff.mp hres).2, rfl⟩

/-- **A route matches** the URLs of the resources that its handler serves. -/
theorem matches_iff (h : Handler) :
    Matches strtod (ofString h.text) url params ↔
      ∃ res, resource url = some res ∧ h.serves res = some params := by
  have hrecord : Matches strtod (ofString "/api/records/<string>") url params ↔
      ∃ nameRaw, resource url = some (.record nameRaw) ∧ strings [nameRaw] = params := by
    rw [matches_lits_param (ofString "/api/records/") .string rfl]
    simp only [readParam_string_all, resource_iff, Resource.Valid, Resource.url]
    constructor
    · rintro ⟨rest, _, rfl, ⟨hne, hno, rfl⟩, rfl⟩
      exact ⟨rest, ⟨⟨hne, hno⟩, rfl⟩, rfl⟩
    · rintro ⟨rest, ⟨⟨hne, hno⟩, rfl⟩, rfl⟩
      exact ⟨rest, _, rfl, ⟨hne, hno, rfl⟩, rfl⟩
  cases h with
  | itemListing =>
    exact matches_fixed .itemListing trivial rfl fun res' => by
      cases res' <;> simp [Handler.serves, eq_comm]
  | statisticsReads =>
    exact matches_fixed .statisticsReads trivial rfl fun res' => by
      cases res' <;> simp [Handler.serves, eq_comm]
  | helloWorld =>
    exact matches_fixed .root trivial rfl fun res' => by
      cases res' <;> simp [Handler.serves, eq_comm]
  | staticFile =>
    rw [Handler.text, matches_lits_param (ofString "/static/") .path rfl]
    simp only [readParam_path_all]
    constructor
    · rintro ⟨rest, _, rfl, ⟨hne, rfl⟩, rfl⟩
      exact ⟨.staticFile rest, resource_iff.mpr ⟨hne, rfl⟩, rfl⟩
    · rintro ⟨res, hres, hs⟩
      cases res with
      | staticFile path =>
        obtain ⟨hne, rfl⟩ := resource_iff.mp hres
        exact ⟨path, _, rfl, ⟨hne, rfl⟩, (Option.some.inj hs).symm⟩
      | _ => cases hs
  | getRecord | postRecord =>
    refine hrecord.trans ⟨fun ⟨nameRaw, hres, hp⟩ => ⟨_, hres, congrArg some hp⟩, ?_⟩
    rintro ⟨res, hres, hs⟩
    cases res with
    | record nameRaw => exact ⟨nameRaw, hres, Option.some.inj hs⟩
    | _ => cases hs

/-- A route belongs to the method of its handler. -/
theorem mem_rulesOf {r : Rule Handler} :
    r ∈ rulesOf routes m ↔ ∃ h : Handler, h.method = m ∧ r = h.rule := by
  rw [rulesOf, List.mem_filter]
  constructor
  · rintro ⟨hr, hm⟩
    obtain ⟨h, -, rfl⟩ := List.mem_map.mp hr
    refine ⟨h, ?_, rfl⟩
    cases h <;> cases m <;> first | rfl | cases hm
  · rintro ⟨h, rfl, rfl⟩
    cases h <;> exact ⟨by simp [routes], rfl⟩

/-- Only the listing has a directory. -/
theorem redirects_iff :
    Redirects strtod (rulesOf routes m) url ↔
      m = .get ∧ resource url = some .recordsDirectory := by
  have hdir : ∀ params, Matches strtod (ofString "/api/records/").dropLast url params ↔
      url = ofString "/api/records" ∧ params = strings [] := fun _ => matches_lits rfl
  constructor
  · rintro ⟨r, hr, hslash, params, hmatch⟩
    obtain ⟨h, rfl, rfl⟩ := mem_rulesOf.mp hr
    cases h with
    | itemListing =>
      obtain ⟨rfl, -⟩ := (hdir params).mp hmatch
      exact ⟨rfl, rfl⟩
    | _ => cases hslash
  · rintro ⟨rfl, hres⟩
    obtain ⟨-, rfl⟩ := resource_iff.mp hres
    exact ⟨Handler.itemListing.rule, mem_rulesOf.mpr ⟨_, rfl, rfl⟩, rfl, strings [],
      (hdir _).mpr ⟨rfl, rfl⟩⟩

/-! ## The decision -/

/-- The handler of a resource for a method, and the parameters it is given. -/
def handlerFor : HTTPMethod → Resource → Option (Handler × RoutingParams)
  | .get, .record nameRaw => some (.getRecord, strings [nameRaw])
  | .post, .record nameRaw => some (.postRecord, strings [nameRaw])
  | .get, .itemListing => some (.itemListing, strings [])
  | .get, .statisticsReads => some (.statisticsReads, strings [])
  | .get, .root => some (.helloWorld, strings [])
  | .get, .staticFile path => some (.staticFile, strings [path])
  | _, _ => none

/-- The methods of a resource. -/
def methodsFor : Resource → List HTTPMethod
  | .record _ => [.get, .post]
  | _ => [.get]

/-- What becomes of a request, by its method and the resource that its URL names. -/
def decision (method : HTTPMethod) (url : Bytes) : Decision Handler :=
  if method = .options ∧ url = ofString "/*" then .allow (allowText [.get, .post])
  else
    match resource url with
    | none => .notFound
    | some res =>
      if method = .options then .allow (allowText (methodsFor res))
      else
        match handlerFor (actual method) res with
        | some (h, params) => .run h.rule params
        | none =>
          if actual method = .get then .redirect
          else .methodNotAllowed

theorem handlerFor_iff {h : Handler} {res : Resource} :
    handlerFor m res = some (h, params) ↔ h.method = m ∧ h.serves res = some params := by
  constructor
  · intro hfor
    unfold handlerFor at hfor
    split at hfor <;> cases hfor <;> exact ⟨rfl, rfl⟩
  · rintro ⟨rfl, hserves⟩
    unfold Handler.serves at hserves
    split at hserves <;> cases hserves <;> rfl

/-- A resource whose URL is that of a handler goes to no other one. -/
theorem firstMatch_of_handlerFor {h : Handler} {res : Resource} (hres : resource url = some res)
    (hfor : handlerFor m res = some (h, params)) :
    FirstMatch strtod (rulesOf routes m) url h.rule params := by
  obtain ⟨hmethod, hserves⟩ := handlerFor_iff.mp hfor
  obtain ⟨before, after, heq, hnotin⟩ :=
    List.eq_append_cons_of_mem (mem_rulesOf.mpr ⟨h, hmethod, rfl⟩)
  refine ⟨before, after, heq, (matches_iff h).mpr ⟨res, hres, hserves⟩, ?_⟩
  intro r' hr' params' hmatch
  obtain ⟨h', hmethod', rfl⟩ := mem_rulesOf.mp (heq ▸ List.mem_append_left _ hr')
  obtain ⟨res', hres', hserves'⟩ := (matches_iff h').mp hmatch
  obtain rfl := Option.some.inj (hres.symm.trans hres')
  obtain ⟨rfl, -⟩ := Prod.mk.inj (Option.some.inj
    (hfor.symm.trans (handlerFor_iff.mpr ⟨hmethod', hserves'⟩)))
  exact hnotin hr'

theorem unmatched_iff :
    Unmatched strtod (rulesOf routes m) url ↔
      ∀ res, resource url = some res → handlerFor m res = none ∧
        ¬ (m = .get ∧ res = .recordsDirectory) := by
  constructor
  · rintro ⟨hred, hno⟩ res hres
    refine ⟨?_, fun ⟨hget, hdir⟩ => hred (redirects_iff.mpr ⟨hget, hdir ▸ hres⟩)⟩
    by_contra hsome
    obtain ⟨⟨h, params⟩, hfor⟩ := Option.ne_none_iff_exists'.mp hsome
    obtain ⟨hmethod, hserves⟩ := handlerFor_iff.mp hfor
    exact hno h.rule (mem_rulesOf.mpr ⟨h, hmethod, rfl⟩) params
      ((matches_iff h).mpr ⟨res, hres, hserves⟩)
  · intro hall
    refine ⟨fun hred => ?_, fun r hr params hmatch => ?_⟩
    · obtain ⟨hget, hdir⟩ := redirects_iff.mp hred
      exact (hall _ hdir).2 ⟨hget, rfl⟩
    · obtain ⟨h, hmethod, rfl⟩ := mem_rulesOf.mp hr
      obtain ⟨res, hres, hserves⟩ := (matches_iff h).mp hmatch
      have hnone := (hall res hres).1
      rw [handlerFor_iff.mpr ⟨hmethod, hserves⟩] at hnone
      cases hnone

/-- The methods of a resource are those that have something for it. -/
theorem mem_methodsFor {res : Resource} :
    m ∈ methodsFor res ↔ handlerFor m res ≠ none ∨ (m = .get ∧ res = .recordsDirectory) := by
  cases res <;> cases m <;> simp [methodsFor, handlerFor]

theorem unmatched_resource_iff {res : Resource} (hres : resource url = some res) :
    Unmatched strtod (rulesOf routes m) url ↔ m ∉ methodsFor res := by
  rw [unmatched_iff, mem_methodsFor]
  constructor
  · intro hall hor
    obtain ⟨hnone, hdir⟩ := hall res hres
    rcases hor with hsome | h
    · exact hsome hnone
    · exact hdir h
  · intro hnot res' hres'
    obtain rfl := Option.some.inj (hres.symm.trans hres')
    refine ⟨?_, fun h => hnot (.inr h)⟩
    by_contra hsome
    exact hnot (.inl hsome)

theorem filter_methodsFor (res : Resource) :
    HTTPMethod.all.filter (fun m => decide (m ∈ methodsFor res)) = methodsFor res := by
  cases res <;> rfl

/-- The decision on a request is that of the rules. -/
theorem decides_decision (strtod : Strtod) (method : HTTPMethod) (url : Bytes) :
    Decides strtod routes method url (decision method url) := by
  rw [decision]
  by_cases hall : method = .options ∧ url = ofString "/*"
  · rw [if_pos hall]
    exact .allowAll hall.1 hall.2
  rw [if_neg hall]
  have hurl : method = .options → url ≠ ofString "/*" := fun hm hu => hall ⟨hm, hu⟩
  cases hres : resource url with
  | none =>
    exact .notFound hurl fun m => unmatched_iff.mpr fun res h => by rw [hres] at h; cases h
  | some res =>
    simp only
    have hun : ∀ m, Unmatched strtod (rulesOf routes m) url ↔ m ∉ methodsFor res :=
      fun m => unmatched_resource_iff hres
    have hget : HTTPMethod.get ∈ methodsFor res := by cases res <;> simp [methodsFor]
    by_cases hm : method = .options
    · rw [if_pos hm, ← filter_methodsFor]
      exact .allow hm (hurl hm) (fun m => by rw [hun]; simp) (decide_eq_true hget)
    · rw [if_neg hm]
      cases hfor : handlerFor (actual method) res with
      | some found =>
        obtain ⟨h, params⟩ := found
        refine .run hm (fun hred => ?_) (firstMatch_of_handlerFor hres hfor)
        obtain ⟨hg, hdir⟩ := redirects_iff.mp hred
        obtain rfl := Option.some.inj (hres.symm.trans hdir)
        rw [hg] at hfor
        cases hfor
      | none =>
        simp only
        by_cases hg : actual method = .get
        · rw [if_pos hg]
          have hdir : res = .recordsDirectory := by
            rw [hg] at hfor
            cases res <;> first | rfl | cases hfor
          exact .redirect hm (redirects_iff.mpr ⟨hg, hdir ▸ hres⟩)
        · rw [if_neg hg]
          refine .methodNotAllowed hm ((hun _).mpr fun hmem => ?_) fun h => (hun .get).mp h hget
          rcases mem_methodsFor.mp hmem with hsome | h
          · exact hsome hfor
          · exact hg h.1

theorem noNul_routes : NoNul routes := by
  intro r hr
  obtain ⟨h, -, rfl⟩ := List.mem_map.mp hr
  cases h <;> decide

/-- The router of the application decides by resources. -/
theorem handle_eq_decision {router : Router Handler}
    (hrouter : Router.validate routes = .ok router) (strtod : Strtod) (method : HTTPMethod)
    (url : Bytes) : router.handle strtod method url = decision method url :=
  (handle_iff (by decide) noNul_routes hrouter _).mpr (decides_decision strtod method url)

theorem routes_set_up : ∃ router, Router.validate routes = .ok router := by
  refine (validate_ok_iff (by decide) noNul_routes).mpr fun m => ?_
  cases m with
  | get | post =>
    refine ⟨_, rfl, by decide, '/'.toUInt8, ?_⟩
    decide
  | _ => exact ⟨[], rfl, by simp, 0, by simp⟩

/-- **The routes of the application**: they can be set up, and every request of every method is
decided by the resource that its URL names. -/
theorem routes_decided : ∃ router, Router.validate routes = .ok router ∧
    ∀ strtod method url, router.handle strtod method url = decision method url := by
  obtain ⟨router, hrouter⟩ := routes_set_up
  exact ⟨router, hrouter, handle_eq_decision hrouter⟩

/-- When a handler runs. -/
theorem decision_run_iff {method : HTTPMethod} {r : Rule Handler} :
    decision method url = .run r params ↔ method ≠ .options ∧ ∃ res h,
      resource url = some res ∧ handlerFor (actual method) res = some (h, params) ∧ r = h.rule := by
  constructor
  · intro hdec
    unfold decision at hdec
    split at hdec
    · cases hdec
    split at hdec
    · cases hdec
    · next res hres =>
      split at hdec
      · cases hdec
      · next hm =>
        split at hdec
        · next h params' hfor =>
          cases hdec
          exact ⟨hm, res, h, hres, hfor, rfl⟩
        · split at hdec <;> cases hdec
  · rintro ⟨hm, res, h, hres, hfor, rfl⟩
    rw [decision, if_neg (fun hall => hm hall.1), hres]
    simp only [if_neg hm, hfor]

/-- Only a piece of the path is ever handed to the handlers of a record. -/
theorem segment_of_run {method : HTTPMethod} {h : Handler} (hrecord : h = .getRecord ∨ h = .postRecord)
    (hdec : decision method url = .run h.rule params) :
    ∃ nameRaw, params = strings [nameRaw] ∧ nameRaw ≠ [] ∧ '/'.toUInt8 ∉ nameRaw ∧
      url = ofString "/api/records/" ++ nameRaw := by
  obtain ⟨-, res, h', hres, hfor, hrule⟩ := decision_run_iff.mp hdec
  obtain rfl : h = h' := congrArg Rule.handler hrule
  obtain ⟨-, hserves⟩ := handlerFor_iff.mp hfor
  obtain ⟨nameRaw, rfl, hparams⟩ : ∃ nameRaw, res = .record nameRaw ∧ strings [nameRaw] = params := by
    rcases hrecord with rfl | rfl <;> cases res <;> cases hserves <;> exact ⟨_, rfl, rfl⟩
  obtain ⟨⟨hne, hno⟩, hurl⟩ := resource_iff.mp hres
  exact ⟨nameRaw, hparams.symm, hne, hno, hurl⟩

end Routes

end LockFreeKV.Http
