import ChunkHound.ChunkSplitter

/-!
# What a chunk must satisfy

`Chunk._validate` of `core/models/chunk.py`, which every construction of a chunk runs : the line
numbers are positive and in order, the code is not empty, and the byte offsets, if given, are not
negative and in order. A blank symbol becomes none. The other fields of a chunk are not checked.
-/

namespace ChunkHound.Cast

/-- `ValidationError`, with the value as its text. -/
structure ValidationError where
  field : String
  value : String
  reason : String
  deriving DecidableEq, Repr

/-- The fields of `Chunk` that are checked, and its path. -/
structure ChunkFields where
  symbol : Option Text
  startLine : ℤ
  endLine : ℤ
  code : Text
  filePath : Option Text
  startByte : Option ℤ
  endByte : Option ℤ
  deriving DecidableEq, Repr

namespace ChunkFields

/-- The symbol as the chunk keeps it. -/
def cleanSymbol (symbol : Option Text) : Option Text := symbol.filter fun s => !s.all isSpace

/-- `start_byte > end_byte`, where both are given. -/
def bytesReversed (c : ChunkFields) : Bool :=
  match c.startByte, c.endByte with
  | some a, some b => b < a
  | _, _ => false

/-- `Chunk.__post_init__`. -/
def validate (c : ChunkFields) : Except ValidationError ChunkFields :=
  if c.startLine < 1 then
    .error ⟨"start_line", toString c.startLine, "Start line must be positive"⟩
  else if c.endLine < 1 then
    .error ⟨"end_line", toString c.endLine, "End line must be positive"⟩
  else if c.endLine < c.startLine then
    .error ⟨"line_range", s!"{c.startLine}-{c.endLine}",
      "Start line cannot be greater than end line"⟩
  else if c.code = [] then
    .error ⟨"code", "", "Code content cannot be empty"⟩
  else if c.startByte.any (· < 0) then
    .error ⟨"start_byte", toString (c.startByte.getD 0), "Start byte cannot be negative"⟩
  else if c.endByte.any (· < 0) then
    .error ⟨"end_byte", toString (c.endByte.getD 0), "End byte cannot be negative"⟩
  else if c.bytesReversed then
    .error ⟨"byte_range", s!"{c.startByte.getD 0}-{c.endByte.getD 0}",
      "Start byte cannot be greater than end byte"⟩
  else .ok { c with symbol := cleanSymbol c.symbol }

/-- What is checked. -/
structure Valid (c : ChunkFields) : Prop where
  start_pos : 1 ≤ c.startLine
  lines : c.startLine ≤ c.endLine
  code : c.code ≠ []
  startByte : ∀ n ∈ c.startByte, 0 ≤ n
  endByte : ∀ n ∈ c.endByte, 0 ≤ n
  bytes : ∀ a ∈ c.startByte, ∀ b ∈ c.endByte, a ≤ b

theorem not_any_negative_iff {o : Option ℤ} : ¬ o.any (· < 0) = true ↔ ∀ n ∈ o, 0 ≤ n := by
  cases o with
  | none => simp
  | some n => simp

theorem not_bytesReversed_iff {c : ChunkFields} : ¬ c.bytesReversed = true ↔
    ∀ a ∈ c.startByte, ∀ b ∈ c.endByte, a ≤ b := by
  unfold bytesReversed
  cases c.startByte with
  | none => simp
  | some a =>
    cases c.endByte with
    | none => simp
    | some b => simp

/-- A chunk is made exactly of fields that are valid. -/
theorem validate_eq_ok_iff {c c' : ChunkFields} : c.validate = .ok c' ↔
    c.Valid ∧ c' = { c with symbol := cleanSymbol c.symbol } := by
  unfold validate
  constructor
  · intro h
    split at h
    · cases h
    split at h
    · cases h
    split at h
    · cases h
    split at h
    · cases h
    split at h
    · cases h
    split at h
    · cases h
    split at h
    · cases h
    rename_i hstart hend hlines hcode hsb heb hbytes
    refine ⟨⟨by omega, by omega, hcode, not_any_negative_iff.1 hsb, not_any_negative_iff.1 heb,
      not_bytesReversed_iff.1 hbytes⟩, ?_⟩
    exact (Except.ok.inj h).symm
  · rintro ⟨h, rfl⟩
    have hstart := h.start_pos
    have hlines := h.lines
    rw [if_neg (by omega), if_neg (by omega), if_neg (by omega), if_neg h.code,
      if_neg (not_any_negative_iff.2 h.startByte), if_neg (not_any_negative_iff.2 h.endByte),
      if_neg (not_bytesReversed_iff.2 h.bytes)]

end ChunkFields

end ChunkHound.Cast
