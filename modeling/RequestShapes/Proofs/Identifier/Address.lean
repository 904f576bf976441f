import RequestShapes.Proofs.Identifier
import RequestShapes.Proofs.Request.Scanning

/-!
# Names of addresses

The name of an address is meant to come from its path alone: what stands in front
of the path, and the query or fragment behind it, should not matter. A host is
taken to end at the first slash. So if no path follows a host, a query that holds
a slash loses only what stands before it, and the rest passes for a path.
-/

namespace RequestShapes.Identifier

open Request (Absent Braceless absent_of_not_mem braceless_append dropWhile_run forall_mem_of_all
  replaceAll_absent replaceAll_nil replaceAll_of_eq_some takeWhile_run)
open Schema (after?_append)
open Text

/-- Whether a character opens a query or a fragment. -/
def isQueryMark (c : Char) : Bool :=
  c = '?' || c = '#'

theorem isQueryMark_iff {c : Char} : isQueryMark c = true ↔ c = '?' ∨ c = '#' := by
  simp [isQueryMark]

/-- What stands in front of the path of an address: nothing, a template variable,
or a scheme and a host. -/
inductive Origin where
  | absent
  | template (name : List Char) (ne_nil : name ≠ []) (unclosed : '}' ∉ name)
  | host (secure : Bool) (name : List Char) (braceless : Braceless name)
      (plain : ∀ c ∈ name, c ≠ '/' ∧ isQueryMark c = false)

/-- The scheme in front of a host. -/
def schemeText (secure : Bool) : List Char :=
  if secure then "https://".toList else "http://".toList

namespace Origin

def text : Origin → List Char
  | absent => []
  | template name _ _ => ['{', '{'] ++ (name ++ ['}', '}'])
  | host secure name _ _ => schemeText secure ++ name

/-- Whether there is a host. -/
def isHost : Origin → Bool
  | host .. => true
  | _ => false

end Origin

/-- An address by its parts. -/
structure Address where
  origin : Origin
  path : List Char
  query : List Char
  path_start : path = [] ∨ path.head? = some '/'
  path_braceless : Braceless path
  path_plain : ∀ c ∈ path, isQueryMark c = false
  query_start : query = [] ∨ query.head?.any isQueryMark = true
  query_braceless : Braceless query
  query_line : '\n' ∉ query

/-! ## The steps -/

section Steps

variable {text rest name : List Char}

theorem dropVariables_of_not_mem (h : '{' ∉ text) : dropVariables text = text := by
  have habsent : Absent (fun left => (afterVariable? left).map fun rest => (([] : List Char), rest))
      text [] :=
    (@absent_of_not_mem '{' ['{'] text h []).mono fun left hleft => by
      simp [afterVariable?, hleft]
  have hkept := replaceAll_absent habsent
  rwa [List.append_nil, replaceAll_nil, List.append_nil] at hkept

theorem afterVariable?_append (hne : name ≠ []) (hname : '}' ∉ name) (rest : List Char) :
    afterVariable? (['{', '{'] ++ (name ++ '}' :: '}' :: rest)) = some rest := by
  have hopen : ∀ c ∈ name, decide (c ≠ '}') = true := fun c hc =>
    decide_eq_true (ne_of_mem_of_not_mem hc hname)
  have hclose : ∀ c ∈ ('}' :: '}' :: rest).head?, decide (c ≠ '}') = false := by simp
  have htake := takeWhile_run hopen hclose
  have hdrop := dropWhile_run hopen hclose
  rw [afterVariable?, after?_append, Option.bind_eq_bind, Option.bind_some, htake, hdrop,
    if_neg (by simpa using hne)]
  rfl

theorem dropVariables_template (hne : name ≠ []) (hname : '}' ∉ name) (hrest : '{' ∉ rest) :
    dropVariables (['{', '{'] ++ (name ++ '}' :: '}' :: rest)) = rest := by
  have hmatch : (afterVariable? (['{', '{'] ++ (name ++ '}' :: '}' :: rest))).map
      (fun rest => (([] : List Char), rest)) = some ([], rest) := by
    rw [afterVariable?_append hne hname]
    rfl
  rw [dropVariables, replaceAll_of_eq_some hmatch (by simp; omega), List.nil_append]
  exact dropVariables_of_not_mem hrest

theorem dropOrigin_scheme (secure : Bool) (rest : List Char) :
    dropOrigin (schemeText secure ++ rest) = rest.dropWhile (· ≠ '/') := by
  cases secure <;> rfl

theorem dropOrigin_of_head? (h : text.head? ≠ some 'h') : dropOrigin text = text := by
  have hnone : ∀ others, after? ('h' :: others) text = none := by
    intro others
    cases text with
    | nil => rfl
    | cons c text => exact if_neg fun heq => h (by rw [← heq]; rfl)
  rw [dropOrigin, show "https://".toList = 'h' :: "ttps://".toList from rfl,
    show "http://".toList = 'h' :: "ttp://".toList from rfl, hnone, hnone]
  rfl

/-- What has no mark in it is kept. -/
theorem dropQuery_append (h : ∀ c ∈ text, isQueryMark c = false) :
    dropQuery (text ++ rest) = text ++ dropQuery rest := by
  induction text with
  | nil => rfl
  | cons c text ih =>
      obtain ⟨hc, htext⟩ := List.forall_mem_cons.mp h
      have hplain : ¬ (c = '?' ∨ c = '#') := by simp [← isQueryMark_iff, hc]
      rw [List.cons_append, dropQuery, if_neg hplain, ih htext, List.cons_append]

/-- On one line the first mark ends the text. -/
theorem dropQuery_of_line (h : '\n' ∉ text) :
    dropQuery text = text.takeWhile fun c => !isQueryMark c := by
  induction text with
  | nil => rfl
  | cons c text ih =>
      rw [List.mem_cons, not_or] at h
      rw [dropQuery]
      by_cases hmark : c = '?' ∨ c = '#'
      · have hrest : text.dropWhile (· ≠ '\n') = [] := List.dropWhile_eq_nil_iff.mpr fun d hd =>
          decide_eq_true (ne_of_mem_of_not_mem hd h.2)
        rw [if_pos hmark, hrest, List.takeWhile_cons_of_neg (by simp [isQueryMark_iff.mpr hmark])]
      · have hkept : (!isQueryMark c) = true := by simpa [← isQueryMark_iff] using hmark
        rw [if_neg hmark, ih h.2, List.takeWhile_cons, if_pos hkept]

theorem raiseWords_eq_nil_iff {inWord : Bool} :
    raiseWords inWord text = [] ↔ ∀ c ∈ text, c.isAlphanum = false := by
  induction text generalizing inWord with
  | nil => simp [raiseWords]
  | cons c text ih =>
      rw [raiseWords, List.forall_mem_cons]
      by_cases hc : c.isAlphanum = true
      · simp [hc]
      · simp [hc, ih]

end Steps

/-! ## Whole addresses -/

namespace Address

variable (address : Address)

def text : List Char :=
  address.origin.text ++ (address.path ++ address.query)

/-- What is left of the query if its beginning is taken for a part of the host:
the text from the first slash up to the next mark. -/
def strayPath : List Char :=
  (address.query.dropWhile (· ≠ '/')).takeWhile fun c => !isQueryMark c

/-- A query behind a host without a path lends the address a name. -/
def NamedByQuery : Prop :=
  address.origin.isHost = true ∧ address.path = [] ∧
    ∃ c ∈ address.strayPath, c.isAlphanum = true

instance : Decidable address.NamedByQuery :=
  inferInstanceAs (Decidable (_ ∧ _ ∧ ∃ c ∈ address.strayPath, c.isAlphanum = true))

variable {address}

theorem braceless_rest : Braceless (address.path ++ address.query) :=
  braceless_append.mpr ⟨address.path_braceless, address.query_braceless⟩

theorem head?_rest : (address.path ++ address.query).head? ≠ some 'h' := by
  obtain hpath | hpath := address.path_start
  · rw [hpath, List.nil_append]
    obtain hquery | hquery := address.query_start
    · simp [hquery]
    · intro hhead
      rw [hhead] at hquery
      cases hquery
  · simp [List.head?_append, hpath]

theorem dropQuery_query : dropQuery address.query = [] := by
  rw [dropQuery_of_line address.query_line]
  obtain hquery | hquery := address.query_start
  · rw [hquery, List.takeWhile_nil]
  · cases hlist : address.query with
    | nil => rfl
    | cons mark rest =>
        rw [hlist] at hquery
        exact List.takeWhile_cons_of_neg (by simpa using hquery)

/-- Without variables and origin the path is left with the query, but a host with
no path behind it takes the query up to its first slash with it. -/
theorem dropOrigin_text : dropOrigin (dropVariables address.text) =
    if address.origin.isHost = true ∧ address.path = [] then address.query.dropWhile (· ≠ '/')
    else address.path ++ address.query := by
  have hopen : '{' ∉ address.path ++ address.query := braceless_rest.1
  have hkept : dropOrigin (address.path ++ address.query) = address.path ++ address.query :=
    dropOrigin_of_head? head?_rest
  rw [text]
  cases address.origin with
  | absent => simp [Origin.text, Origin.isHost, dropVariables_of_not_mem hopen, hkept]
  | template name hne hname =>
      have htext : Origin.text (.template name hne hname) ++ (address.path ++ address.query) =
          ['{', '{'] ++ (name ++ '}' :: '}' :: (address.path ++ address.query)) := by
        simp [Origin.text]
      rw [htext, dropVariables_template hne hname hopen, hkept]
      simp [Origin.isHost]
  | host secure name hbraceless hplain =>
      have hscheme : Braceless (schemeText secure) := by cases secure <;> decide
      have hslash : ∀ c ∈ name, decide (c ≠ '/') = true := fun c hc =>
        decide_eq_true (hplain c hc).1
      have hall : Braceless (schemeText secure ++ (name ++ (address.path ++ address.query))) :=
        braceless_append.mpr ⟨hscheme, braceless_append.mpr ⟨hbraceless, braceless_rest⟩⟩
      rw [Origin.text, List.append_assoc, dropVariables_of_not_mem hall.1, dropOrigin_scheme,
        List.dropWhile_append_of_pos hslash]
      obtain hpath | hpath := address.path_start
      · simp [Origin.isHost, hpath]
      · cases hlist : address.path with
        | nil => simp [hlist] at hpath
        | cons c path =>
            rw [hlist] at hpath
            obtain rfl := Option.some.inj hpath
            simp

theorem ofUrl_path : ofUrl (String.ofList address.path) =
    String.ofList (raiseWords false address.path) := by
  have hhead : address.path.head? ≠ some 'h' := by
    obtain hpath | hpath := address.path_start <;> simp [hpath]
  have hquery := @dropQuery_append address.path [] address.path_plain
  rw [List.append_nil, dropQuery, List.append_nil] at hquery
  rw [ofUrl, String.toList_ofList, dropVariables_of_not_mem address.path_braceless.1,
    dropOrigin_of_head? hhead, hquery]

end Address

/-- An address is named after its path alone, unless it has a host and no path, and
a slash in its query is followed by a letter or digit before the next mark. -/
theorem ofUrl_address_iff (address : Address) :
    ofUrl (String.ofList address.text) = ofUrl (String.ofList address.path) ↔
      ¬ address.NamedByQuery := by
  rw [Address.ofUrl_path, ofUrl, String.toList_ofList, Address.dropOrigin_text,
    Address.NamedByQuery, ← and_assoc]
  split
  next hbare =>
    have hline : '\n' ∉ address.query.dropWhile (· ≠ '/') := fun hmem =>
      address.query_line ((List.dropWhile_suffix _).subset hmem)
    rw [dropQuery_of_line hline, hbare.2, ← Address.strayPath, raiseWords]
    simp [hbare, raiseWords_eq_nil_iff, String.ofList_eq_empty_iff]
  next hother =>
    rw [dropQuery_append address.path_plain, Address.dropQuery_query, List.append_nil]
    simp [hother]

/-- An address with all parts, and another address in its query. -/
def redirectAddress : Address where
  origin := .host true "api.example.com".toList (by decide) (forall_mem_of_all (by decide))
  path := "/users/:id".toList
  query := "?next=http://h/login#top".toList
  path_start := by decide
  path_braceless := by decide
  path_plain := forall_mem_of_all (by decide)
  query_start := by decide
  query_braceless := by decide
  query_line := by decide

theorem redirectAddress_named_by_path :
    redirectAddress.text = "https://api.example.com/users/:id?next=http://h/login#top".toList ∧
      ofUrl (String.ofList redirectAddress.text) = ofUrl (String.ofList redirectAddress.path) :=
  ⟨by decide, (ofUrl_address_iff redirectAddress).mpr (by decide)⟩

/-- A host without a path, and a path in its query. -/
def bareAddress : Address where
  origin := .host true "api.example.com".toList (by decide) (forall_mem_of_all (by decide))
  path := []
  query := "?next=/login".toList
  path_start := by decide
  path_braceless := by decide
  path_plain := forall_mem_of_all (by decide)
  query_start := by decide
  query_braceless := by decide
  query_line := by decide

theorem bareAddress_named_by_query :
    bareAddress.text = "https://api.example.com?next=/login".toList ∧
      ofUrl (String.ofList bareAddress.text) = "Login" ∧
      ofUrl (String.ofList bareAddress.path) = "" :=
  ⟨by decide, by cbv, by cbv⟩

end RequestShapes.Identifier
