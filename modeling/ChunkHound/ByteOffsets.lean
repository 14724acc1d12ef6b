import ChunkHound.ChunkValidation
import ChunkHound.StepSystem
import Mathlib

/-!
# Byte offsets of chunks

`_convert_to_chunks` of `universal_parser.py` gives every chunk the byte offsets of its text. The
start is the number of characters in the lines before, each with its line break, and the end is
the start and the length of the chunk's content in UTF-8.

The offsets are those of the chunk's lines (`Delimits`) when the lines before are ASCII and the
content is as long as the lines (`byteOffsets_iff`).
-/

namespace ChunkHound.Cast

/-! ## UTF-8 -/

/-- `text.encode("utf-8")`. -/
def encode (text : Text) : List UInt8 := text.flatMap String.utf8EncodeChar

theorem encode_append (a b : Text) : encode (a ++ b) = encode a ++ encode b :=
  List.flatMap_append

theorem length_encode_cons (c : Char) (text : Text) :
    (encode (c :: text)).length = c.utf8Size + (encode text).length := by
  unfold encode
  rw [List.flatMap_cons, List.length_append, String.length_utf8EncodeChar]

theorem length_le_encode : ∀ text : Text, text.length ≤ (encode text).length
  | [] => Nat.zero_le _
  | c :: text => by
    have ih := length_le_encode text
    have hpos := c.utf8Size_pos
    rw [length_encode_cons, List.length_cons]
    omega

/-- A text has as many bytes as characters when it is ASCII. -/
theorem length_encode_eq_iff : ∀ {text : Text},
    text.length = (encode text).length ↔ ∀ c ∈ text, c.val ≤ 127
  | [] => by simp [encode]
  | c :: text => by
    have ih : text.length = (encode text).length ↔ ∀ c ∈ text, c.val ≤ 127 :=
      length_encode_eq_iff
    have hpos := c.utf8Size_pos
    have hle := length_le_encode text
    rw [length_encode_cons, List.length_cons, List.forall_mem_cons, ← ih,
      ← Char.utf8Size_eq_one_iff]
    omega

/-! ## Lines -/

/-- The first `n` lines, each with its line break. -/
def textBefore (content : Text) (n : ℕ) : Text :=
  ((content.splitOn '\n').take n).flatMap (· ++ ['\n'])

/-- The lines from `start` to `stop`, counted from one. -/
def lineText (content : Text) (start stop : ℕ) : Text :=
  ['\n'].intercalate (((content.splitOn '\n').take stop).drop (start - 1))

theorem intercalate_take_drop : ∀ {lines : List Text} {n : ℕ}, n < lines.length →
    ['\n'].intercalate lines =
      (lines.take n).flatMap (· ++ ['\n']) ++ ['\n'].intercalate (lines.drop n)
  | lines, 0, _ => by simp
  | l :: lines, n + 1, h => by
    have hlen : n < lines.length := by simpa using h
    have hne : lines ≠ [] := List.length_pos_iff.1 (Nat.zero_lt_of_lt hlen)
    rw [List.intercalate_cons_of_ne_nil hne, intercalate_take_drop hlen]
    simp

theorem intercalate_take_prefix (lines : List Text) (n : ℕ) :
    ['\n'].intercalate (lines.take n) <+: ['\n'].intercalate lines := by
  by_cases htake : lines.take n = []
  · rw [htake]
    exact List.nil_prefix
  · by_cases hdrop : lines.drop n = []
    · have hall : lines.take n = lines := List.take_of_length_le (List.drop_eq_nil_iff.1 hdrop)
      exact ⟨[], by rw [hall, List.append_nil]⟩
    · have hjoin := Joined.intercalate_append ['\n'] htake hdrop
      rw [List.take_append_drop] at hjoin
      rw [hjoin, List.append_assoc]
      exact List.prefix_append _ _

variable {content : Text}

/-- The lines stand after those before them. -/
theorem content_eq {start : ℕ} (stop : ℕ) (hpos : 1 ≤ start)
    (hstart : start ≤ (content.splitOn '\n').length) :
    ∃ tail, content = textBefore content (start - 1) ++ lineText content start stop ++ tail := by
  have hlt : start - 1 < (content.splitOn '\n').length := by omega
  have hsplit := intercalate_take_drop hlt
  rw [List.intercalate_splitOn] at hsplit
  obtain ⟨tail, htail⟩ := intercalate_take_prefix ((content.splitOn '\n').drop (start - 1))
    (stop - (start - 1))
  refine ⟨tail, ?_⟩
  unfold textBefore lineText
  rw [List.drop_take, List.append_assoc, htail]
  exact hsplit

/-! ## Offsets -/

/-- `_convert_to_chunks`, for one chunk. A start line that is not positive cuts the lines at
another place, and is refused. -/
def convertToChunk (content : Text) (filePath : Option Text) (uc : UniversalChunk) :
    Except ValidationError ChunkFields :=
  let linesBefore := (content.splitOn '\n').take (uc.startLine - 1).toNat
  let startByte : ℤ := (linesBefore.map fun line => (line.length : ℤ) + 1).sum
  ChunkFields.validate
    { symbol := some uc.name.toList
      startLine := uc.startLine
      endLine := uc.endLine
      code := uc.content
      filePath := filePath
      startByte := if content = [] then none else some startByte
      endByte := if content = [] then none else some (startByte + (encode uc.content).length) }

/-- `_convert_to_chunks`. -/
def convertToChunks (content : Text) (filePath : Option Text) (ucs : List UniversalChunk) :
    Except ValidationError (List ChunkFields) :=
  ucs.mapM (convertToChunk content filePath)

/-- The bytes from `a` to `b` are those of the lines from `start` to `stop`. -/
structure Delimits (content : Text) (start stop : ℕ) (a b : ℤ) : Prop where
  first : a = (encode (textBefore content (start - 1))).length
  last : b = a + (encode (lineText content start stop)).length
  slice : ((encode content).take b.toNat).drop a.toNat = encode (lineText content start stop)

theorem sum_lines (lines : List Text) :
    (lines.map fun line => (line.length : ℤ) + 1).sum =
      ((lines.flatMap (· ++ ['\n'])).length : ℤ) := by
  induction lines with
  | nil => rfl
  | cons line lines ih =>
    rw [List.map_cons, List.sum_cons, ih, List.flatMap_cons, List.length_append,
      List.length_append, List.length_singleton]
    omega

/-- The right offsets give the right bytes. After the last line there are none. -/
theorem Delimits.of_offsets {start stop : ℕ} {a b : ℤ} (hpos : 1 ≤ start)
    (ha : a = (encode (textBefore content (start - 1))).length)
    (hb : b = a + (encode (lineText content start stop)).length) :
    Delimits content start stop a b := by
  refine ⟨ha, hb, ?_⟩
  have hdiff : b.toNat - a.toNat = (encode (lineText content start stop)).length := by omega
  rw [List.drop_take, hdiff, ha, Int.toNat_natCast]
  by_cases hstart : start ≤ (content.splitOn '\n').length
  · obtain ⟨tail, htail⟩ := content_eq stop hpos hstart
    have hencode : encode content = encode (textBefore content (start - 1)) ++
        (encode (lineText content start stop) ++ encode tail) := by
      conv_lhs => rw [htail]
      rw [encode_append, encode_append, List.append_assoc]
    rw [hencode, List.drop_left, List.take_left]
  · have hnone : ((content.splitOn '\n').take stop).drop (start - 1) = [] := by
      rw [List.drop_eq_nil_iff, List.length_take]
      omega
    have hempty : lineText content start stop = [] := by
      unfold lineText
      rw [hnone]
      rfl
    rw [hempty]
    rfl

/-- What a chunk stores : the characters before it, and these and its own bytes. -/
theorem convertToChunk_ok {filePath : Option Text} {uc : UniversalChunk}
    {chunk : ChunkFields} (h : convertToChunk content filePath uc = .ok chunk) {a b : ℤ}
    (ha : chunk.startByte = some a) (hb : chunk.endByte = some b) :
    1 ≤ uc.startLine ∧ a = (textBefore content (uc.startLine.toNat - 1)).length ∧
      b = a + (encode uc.content).length := by
  obtain ⟨hvalid, rfl⟩ := ChunkFields.validate_eq_ok_iff.1 h
  have hstart : 1 ≤ uc.startLine := hvalid.start_pos
  have hnat : (uc.startLine - 1).toNat = uc.startLine.toNat - 1 := by omega
  simp only [sum_lines, hnat] at ha hb
  split at ha
  · cases ha
  · rename_i hcontent
    rw [if_neg hcontent] at hb
    obtain rfl := Option.some.inj ha
    obtain rfl := Option.some.inj hb
    exact ⟨hstart, rfl, rfl⟩

/-- The offsets stored for a chunk are those of its lines exactly when the text before is ASCII and
the content of the chunk has as many bytes as the lines. -/
theorem byteOffsets_iff {content : Text} {filePath : Option Text} {ucs : List UniversalChunk}
    {chunks : List ChunkFields} (h : convertToChunks content filePath ucs = .ok chunks)
    {uc : UniversalChunk} {chunk : ChunkFields} (hmem : (uc, chunk) ∈ ucs.zip chunks) {a b : ℤ}
    (ha : chunk.startByte = some a) (hb : chunk.endByte = some b) :
    Delimits content uc.startLine.toNat uc.endLine.toNat a b ↔
      (∀ c ∈ textBefore content (uc.startLine.toNat - 1), c.val ≤ 127) ∧
        (encode uc.content).length =
          (encode (lineText content uc.startLine.toNat uc.endLine.toNat)).length := by
  have hconvert : convertToChunk content filePath uc = .ok chunk :=
    List.forall₂_zip (StepSystem.forall₂_of_mapM h) hmem
  obtain ⟨hstart, rfl, rfl⟩ := convertToChunk_ok hconvert ha hb
  rw [← length_encode_eq_iff]
  constructor
  · intro hd
    have hfirst := hd.first
    have hlast := hd.last
    exact ⟨by omega, by omega⟩
  · rintro ⟨hascii, hlen⟩
    exact .of_offsets (by omega) (by omega) (by omega)

/-- The second line of an ASCII file. -/
theorem byteOffsets_ascii : Delimits "x = 1\ny = 2\n".toList 2 2 6 11 := by
  have hconvert : convertToChunks "x = 1\ny = 2\n".toList none
      [⟨.block, "y", "y = 2".toList, 2, 2, ⟨false, none, none, none⟩, "block"⟩] =
        .ok [⟨some ['y'], 2, 2, "y = 2".toList, none, some 6, some 11⟩] := by decide +kernel
  have hascii : (textBefore "x = 1\ny = 2\n".toList 1).all (fun c => c.val ≤ 127) = true := by
    decide +kernel
  refine (byteOffsets_iff hconvert (List.mem_singleton_self _) rfl rfl).2 ⟨fun c hc => ?_, ?_⟩
  · exact of_decide_eq_true (List.all_eq_true.1 hascii c hc)
  · decide +kernel

/-- One letter before the line has two bytes. -/
theorem byteOffsets_accent : ¬ ∀ (content : Text) (filePath : Option Text)
    (ucs : List UniversalChunk) (chunks : List ChunkFields),
    convertToChunks content filePath ucs = .ok chunks → ∀ p ∈ ucs.zip chunks,
      ∀ a ∈ p.2.startByte, ∀ b ∈ p.2.endByte, ((encode content).take b.toNat).drop a.toNat =
        encode (lineText content p.1.startLine.toNat p.1.endLine.toNat) := by
  intro h
  have hslice := h "é\nab".toList none
    [⟨.block, "f", "ab".toList, 2, 2, ⟨false, none, none, none⟩, "block"⟩]
    [⟨some ['f'], 2, 2, "ab".toList, none, some 2, some 4⟩] (by decide +kernel) _
    (List.mem_singleton_self _) 2 rfl 4 rfl
  exact absurd hslice (by decide +kernel)

end ChunkHound.Cast
