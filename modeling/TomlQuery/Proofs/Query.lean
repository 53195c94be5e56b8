import TomlQuery.Proofs.Lookup
/-! # The entry points of a query

A query of a document text, a question whether it has a value, a query of a document that was read
before and a lookup in it take the same steps, so they succeed together and fail with the same
error. Requests on one document leave it as it was, and each of them is answered as if it were the
first.
-/
namespace TomlQuery
open Outcome

/-! ## One text -/

section Text

variable (format : Format) (path content : String)

theorem query_malformed {e : Path.SyntaxError} (h : Path.read path = .error e) :
    query format path content = .error (.path e) ∧ hasProperty path content = .error (.path e) := by
  rw [query, hasProperty, h]
  exact ⟨rfl, rfl⟩

variable {path content}

theorem query_undocumented {segments : Path} {e : DocumentError}
    (hp : Path.read path = .ok segments) (h : Document.read content = .error e) :
    query format path content = .error (.document e) ∧
      hasProperty path content = .error (.document e) := by
  rw [query, hasProperty, hp, h]
  exact ⟨rfl, rfl⟩

theorem query_documented {segments : Path} {document : Node} (hp : Path.read path = .ok segments)
    (hd : Document.read content = .ok document) :
    query format path content = (do
        let node ← (document.resolve segments).mapError .lookup
        return node.render format segments) ∧
      hasProperty path content = .ok (document.resolve segments).isOk := by
  rw [query, hasProperty, hp, hd]
  exact ⟨rfl, rfl⟩

variable {format}

theorem query_eq_ok_iff {output : String} :
    query format path content = .ok output ↔
      ∃ segments document node, Path.read path = .ok segments ∧
        Document.read content = .ok document ∧ document.resolve segments = .ok node ∧
        node.render format segments = output := by
  simp only [query, bind_eq_ok_iff, mapError_eq_ok_iff]
  constructor
  · rintro ⟨segments, hp, document, hd, node, hn, h⟩
    exact ⟨segments, document, node, hp, hd, hn, Except.ok.inj h⟩
  · rintro ⟨segments, document, node, hp, hd, hn, h⟩
    exact ⟨segments, hp, document, hd, node, hn, congrArg Except.ok h⟩

end Text

/-- The question whether a text has a value is answered as its query turns out. A malformed path
is reported whatever the document text. -/
structure AsksAlike (format : Format) (path content : String) : Prop where
  present : hasProperty path content = .ok true ↔ ∃ output, query format path content = .ok output
  missing : hasProperty path content = .ok false ↔
    ∃ e, query format path content = .error (.lookup e)
  failed : ∀ e, hasProperty path content = .error e ↔
    query format path content = .error e ∧ ∀ l, e ≠ .lookup l
  malformed : ∀ e, Path.read path = .error e ↔ query format path content = .error (.path e)

theorem asksAlike_of_error {format : Format} {path content : String} {e : QueryError}
    (hq : query format path content = .error e) (hh : hasProperty path content = .error e)
    (hl : ∀ l, e ≠ .lookup l) (hp : ∀ p, Path.read path = .error p ↔ e = .path p) :
    AsksAlike format path content := by
  constructor
  · simp [hh, hq]
  · simp [hh, hq, hl]
  · intro d
    rw [hh, hq]
    constructor
    · intro h
      obtain rfl := Except.error.inj h
      exact ⟨rfl, hl⟩
    · rintro ⟨h, -⟩
      rw [Except.error.inj h]
  · intro p
    rw [hp, hq, Except.error.injEq]

theorem asksAlike (format : Format) (path content : String) : AsksAlike format path content := by
  -- The path is read first, so a malformed one hides whatever is wrong with the document.
  cases hp : Path.read path with
  | error e =>
    obtain ⟨hq, hh⟩ := query_malformed format path content hp
    apply asksAlike_of_error hq hh nofun
    intro p
    rw [hp, Except.error.injEq, QueryError.path.injEq]
  | ok segments =>
    cases hd : Document.read content with
    | error e =>
      obtain ⟨hq, hh⟩ := query_undocumented format hp hd
      apply asksAlike_of_error hq hh nofun
      intro p
      simp [hp]
    | ok document =>
      obtain ⟨hq, hh⟩ := query_documented format hp hd
      cases hr : document.resolve segments with
      | error l =>
        rw [hr] at hq hh
        replace hq : query format path content = .error (.lookup l) := hq
        replace hh : hasProperty path content = .ok false := hh
        constructor
        · simp [hh, hq]
        · simp [hh, hq]
        · intro e
          rw [hh, hq]
          constructor
          · exact nofun
          · rintro ⟨h, hl⟩
            exact absurd (Except.error.inj h).symm (hl l)
        · simp [hp, hq]
      | ok node =>
        rw [hr] at hq hh
        replace hq : query format path content = .ok (node.render format segments) := hq
        replace hh : hasProperty path content = .ok true := hh
        constructor
        · simp [hh, hq]
        · simp [hh, hq]
        · simp [hh, hq]
        · simp [hp, hq]

/-! ## One document, many requests -/

theorem Node.query_malformed (format : Format) {path : String} (document : Node)
    {e : Path.SyntaxError} (h : Path.read path = .error e) :
    document.query format path = .error (.path e) := by
  rw [Node.query, h]
  rfl

theorem Node.query_read (format : Format) {path : String} {segments : Path} (document : Node)
    (h : Path.read path = .ok segments) :
    document.query format path = (do
      let node ← (document.resolve segments).mapError .lookup
      return ⟨segments, node, node.render format segments⟩) := by
  rw [Node.query, h]
  rfl

/-- A request on a document: a query for a path text, or a lookup of a path that may fail. -/
inductive Request
  | query (format : Format) (path : String)
  | find (path : Path)

inductive Reply
  | answer (outcome : Except QueryError Answer)
  | found (outcome : Except QueryError (Except LookupError Node))

/-- The reply to a request, and the document that it leaves for the next one. -/
def Request.perform (document : Node) : Request → Reply × Node
  | query format path => (.answer (document.query format path), document)
  | find path => (.found (document.tryResolve path), document)

/-- The replies to a row of requests, and the document that they leave. -/
def performAll (document : Node) : List Request → List Reply × Node
  | [] => ([], document)
  | request :: rest =>
    let first := request.perform document
    let others := performAll first.2 rest
    (first.1 :: others.1, others.2)

/-- A reply says what a query of the text says from which the document was read. -/
inductive RepliesAlike (content : String) (document : Node) : Request → Reply → Prop
  | answered {format : Format} {path output : String} {segments : Path} {node : Node} :
      query format path content = .ok output → Path.read path = .ok segments →
      document.tryResolve segments = .ok (.ok node) →
      RepliesAlike content document (.query format path) (.answer (.ok ⟨segments, node, output⟩))
  | refused {format : Format} {path : String} {e : QueryError} :
      query format path content = .error e →
      RepliesAlike content document (.query format path) (.answer (.error e))
  | found {segments : Path} {node : Node} : document.resolve segments = .ok node →
      (∀ format path, Path.read path = .ok segments →
        query format path content = .ok (node.render format segments)) →
      RepliesAlike content document (.find segments) (.found (.ok (.ok node)))
  | missed {segments : Path} {e : LookupError} : document.resolve segments = .error e →
      (∀ format path, Path.read path = .ok segments →
        query format path content = .error (.lookup e)) →
      RepliesAlike content document (.find segments) (.found (.ok (.error e)))

theorem Request.perform_document (document : Node) (request : Request) :
    (request.perform document).2 = document := by
  cases request <;> rfl

theorem Request.perform_repliesAlike {content : String} {document : Node}
    (hd : Document.read content = .ok document) (request : Request) :
    RepliesAlike content document request (request.perform document).1 := by
  cases request with
  | query format path =>
    rw [perform]
    cases hp : Path.read path with
    | error e =>
      rw [document.query_malformed format hp]
      exact .refused (query_malformed format path content hp).1
    | ok segments =>
      have hq := (query_documented format hp hd).1
      rw [document.query_read format hp]
      cases hr : document.resolve segments with
      | error l =>
        rw [hr] at hq
        exact .refused hq
      | ok node =>
        rw [hr] at hq
        exact .answered hq hp (by rw [tryResolve_eq, hr])
  | find segments =>
    rw [perform, tryResolve_eq]
    cases hr : document.resolve segments with
    | error l =>
      apply RepliesAlike.missed hr
      intro format path hp
      rw [(query_documented format hp hd).1, hr]
      rfl
    | ok node =>
      apply RepliesAlike.found hr
      intro format path hp
      rw [(query_documented format hp hd).1, hr]
      rfl

/-- A row of requests leaves the document as it was, and replies to each of them by itself. -/
theorem performAll_eq (document : Node) (requests : List Request) :
    performAll document requests =
      (requests.map fun request => (request.perform document).1, document) := by
  induction requests with
  | nil => rfl
  | cons request rest ih =>
    simp only [performAll, request.perform_document, ih, List.map_cons]

/-- A query of a text and the question whether it has a value go together. Once its document has
been read, any request among any others gets the reply that the text gives. -/
theorem entryPoints_agree (content : String) :
    (∀ format path, AsksAlike format path content) ∧
    ∀ document, Document.read content = .ok document → ∀ before request after, ∃ reply,
      (performAll document (before ++ request :: after)).1 =
        (performAll document before).1 ++ reply :: (performAll document after).1 ∧
      RepliesAlike content document request reply := by
  refine ⟨fun format path => asksAlike format path content, ?_⟩
  intro document hd before request after
  refine ⟨(request.perform document).1, ?_, request.perform_repliesAlike hd⟩
  simp only [performAll_eq, List.map_append, List.map_cons]

/-- A query after one whose path is malformed and one that finds nothing. -/
theorem entryPoints_agree_later :
    hasProperty "a.b[1]" "a = {b = [1, 2]}\n" = .ok true ∧
    ∃ document reply, Document.read "a = {b = [1, 2]}\n" = .ok document ∧
      (performAll document ([.query .text "a..b", .find [.key "c"]] ++
        [.query .json "a.b[1]"])).1[2]? = some reply ∧
      RepliesAlike "a = {b = [1, 2]}\n" document (.query .json "a.b[1]") reply := by
  obtain ⟨hasks, hshared⟩ := entryPoints_agree "a = {b = [1, 2]}\n"
  have hd : Document.read "a = {b = [1, 2]}\n" =
      .ok (.table [("a", .table [("b", .array [.integer 1, .integer 2])])]) := by decide +kernel
  have hq : query .json "a.b[1]" "a = {b = [1, 2]}\n" = .ok "2" := by decide +kernel
  obtain ⟨reply, hr, halike⟩ :=
    hshared _ hd [.query .text "a..b", .find [.key "c"]] (.query .json "a.b[1]") []
  refine ⟨(hasks .json "a.b[1]").present.2 ⟨"2", hq⟩, _, reply, hd, ?_, halike⟩
  rw [hr]
  rfl

end TomlQuery
