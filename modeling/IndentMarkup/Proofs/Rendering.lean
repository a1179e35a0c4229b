import IndentMarkup.Encoder.Basic

/-!
# Rendering documents

What an encoder writes of a document is a list of rows, which can be said without an encoder. A
document is rendered row by row, each row at a level of indentation, in one pass over
its nodes (`Node.render`, `Node.renderAll`). A block is left open when it is rendered; it
is closed by what follows it: an else that belongs to it adds a branch first, any other
node and the end of the siblings close it at once.

The rows before a node that cannot be rendered are rendered all the
same, so a `Rendering` is the rows and possibly an error after them. Renderings are put
one after the other by `++`, which stops at an error.
-/

namespace IndentMarkup

/-- The rows of some nodes, up to the first node that cannot be rendered. -/
structure Rendering where
  /-- The rows. -/
  rows : List Row
  /-- Why there are no more of them, if a node cannot be rendered. -/
  error : Option RenderError

namespace Rendering

/-- The rendering of nothing. -/
def empty : Rendering := ⟨[], none⟩

/-- A single row. -/
def row (level : Nat) (t : Bytes) : Rendering := ⟨[⟨level, t⟩], none⟩

/-- Nothing but an error. -/
def fail (e : RenderError) : Rendering := ⟨[], some e⟩

/-- One rendering after the other, unless there is an error in the first one. -/
def append (r s : Rendering) : Rendering :=
  match r.error with
  | none => ⟨r.rows ++ s.rows, s.error⟩
  | some _ => r

instance : Append Rendering := ⟨append⟩

/-- The rows as a text, with a line feed between each two of them. -/
def text (r : Rendering) : Bytes := Bytes.join [Byte.lf] (r.rows.map Row.bytes)

end Rendering

namespace Block

/-- The row that opens a block, or a further branch of one. -/
def opening (b : Block) : Bytes :=
  if b.keyword = .elseWord then mustache "else"
  else mustache ("#" ++ b.keyword.name ++ " " ++ b.argument)

/-- The row that closes a block. -/
def closing (b : Block) : Bytes := mustache ("/" ++ b.keyword.name)

end Block

/-- The rendering that closes a block at the given level, if one is open. -/
def closeBlock (level : Nat) : Option Block → Rendering
  | none => .empty
  | some b => .row level b.closing

namespace Node

/-- The block that is open after a node: the node itself, if it is a block. -/
def opened : Node → Option Block
  | block _ b _ => some b
  | _ => none

mutual

/-- The rendering of a node at the given level. A block is not closed. -/
def render (style : BindingStyle) (level : Nat) : Node → Rendering
  | element _ el [] => .row level (el.openTag style ++ el.content.template ++ el.closeTag)
  | element _ el (c :: cs) =>
    .row level (el.openTag style) ++
      (if el.content.isHollow then .empty else .row (level + 1) el.content.template) ++
      renderAll style (level + 1) none (c :: cs) ++ .row level el.closeTag
  | text _ span => .row level span.template
  | expression _ value => .row level (mustache value)
  | block _ b cs => .row level b.opening ++ renderAll style (level + 1) none cs
  | document _ _ => .fail .nestedDocument
  | absent => .fail .absentNode

/-- The rendering of siblings at the given level, after a block that is still open, if
    there is one. -/
def renderAll (style : BindingStyle) (level : Nat) (last : Option Block) :
    List Node → Rendering
  | [] => closeBlock level last
  | n :: ns =>
    if n.isElse then
      if last.any (·.keyword.takesElse) then
        render style level n ++ closeBlock level last ++ renderAll style level none ns
      else closeBlock level last ++ .fail (.orphanElse n.range)
    else closeBlock level last ++ render style level n ++ renderAll style level n.opened ns

end

end Node

/-- The rendering of a document. -/
def Document.render (style : BindingStyle) (d : Document) : Rendering :=
  Node.renderAll style 0 none d.children

namespace Rendering

@[simp] theorem error_append (r s : Rendering) : (r ++ s).error = r.error.or s.error := by
  change (append r s).error = _
  cases h : r.error <;> simp [append, h]

theorem append_empty (r : Rendering) : r ++ empty = r := by
  obtain ⟨rows, - | e⟩ := r
  · exact congrArg (Rendering.mk · none) (List.append_nil rows)
  · rfl

/-- Nothing comes after an error. -/
theorem append_of_error {r : Rendering} {e : RenderError} (h : r.error = some e) (s : Rendering) :
    r ++ s = r := by
  change append r s = r
  rw [append, h]

theorem fail_append (e : RenderError) (r : Rendering) : fail e ++ r = fail e := rfl

theorem append_assoc (r s t : Rendering) : r ++ s ++ t = r ++ (s ++ t) := by
  obtain ⟨rows, - | e⟩ := r
  · obtain ⟨rows', - | e'⟩ := s
    · exact congrArg (Rendering.mk · t.error) (List.append_assoc rows rows' t.rows)
    · rfl
  · rfl

theorem rows_append {r s : Rendering} (h : r.error = none) : (r ++ s).rows = r.rows ++ s.rows := by
  change (append r s).rows = _
  rw [append, h]

theorem exists_rows_append (r s : Rendering) : ∃ rs, (r ++ s).rows = r.rows ++ rs := by
  cases h : r.error with
  | none => exact ⟨s.rows, rows_append h⟩
  | some e => exact ⟨[], by rw [append_of_error h, List.append_nil]⟩

@[simp] theorem error_empty : empty.error = none := rfl

@[simp] theorem error_row (level : Nat) (t : Bytes) : (row level t).error = none := rfl

@[simp] theorem error_fail (e : RenderError) : (fail e).error = some e := rfl

theorem closeBlock_none_append (level : Nat) (r : Rendering) : closeBlock level none ++ r = r := rfl

@[simp] theorem error_closeBlock (level : Nat) (b : Option Block) :
    (closeBlock level b).error = none := by
  cases b <;> rfl

end Rendering

namespace Node

theorem takesElse_of_isElse {n : Node} (h : n.isElse) : n.takesElse = false := by
  cases n with
  | block r b cs =>
    have hb : b.keyword = .elseWord := by simpa [isElse] using h
    rw [takesElse, hb]
    decide
  | _ => rfl

theorem any_opened (n : Node) : n.opened.any (·.keyword.takesElse) = n.takesElse := by
  cases n <;> rfl

end Node

end IndentMarkup
