import Mathlib.Data.List.Basic
import Mathlib.Data.UInt
import Mathlib.Tactic.Common

/-!
# The proxy bridge

The proxy reads lines of JSON from its stdin and writes each as a frame to the socket of the daemon,
which reads them back with `read_frame`. On POSIX the lines come from a `StreamReader` with its
limit, on Windows from a buffer without one. Both only depend on the bytes, not on how they are cut
into chunks (`feedAll_iff`).

A line that is no JSON is skipped. Anything else that is raised ends the bridge : bytes that are no
UTF-8 (`undecodable_line_ends_bridge`), a line over the limit, a value that cannot be packed. Both
paths carry exactly the values of the lines where none of these occurs, and only there
(`faithful_iff`).

What a text loads to is any function. So are packing and unpacking, of which only what is documented
of the values of the lines is used.
-/

namespace ChunkHound.ProxyBridge

/-! ## JSON -/

/-- A JSON value. A string is the list of its code points, which may be lone surrogates, and a
float its bits. -/
inductive Json
  | null
  | bool (b : Bool)
  | int (n : ℤ)
  | float (bits : UInt64)
  | str (points : List ℕ)
  | arr (items : List Json)
  | obj (entries : List (List ℕ × Json))

/-- The string has a UTF-8 encoding. -/
def encodable (points : List ℕ) : Bool := points.all fun p => p < 0xD800 || 0xDFFF < p

mutual

/-- The value can be packed with `limit` levels left : its integers have 64 bits, signed or not, and
its strings have an encoding. -/
def Json.packable (limit : ℕ) : Json → Bool
  | .int n => decide (-2 ^ 63 ≤ n ∧ n ≤ 2 ^ 64 - 1)
  | .str points => encodable points
  | .arr items => packableItems limit items
  | .obj entries => packableEntries limit entries
  | _ => true

def packableItems : ℕ → List Json → Bool
  | _, [] => true
  | 0, _ :: _ => false
  | limit + 1, v :: items => v.packable limit && packableItems (limit + 1) items

def packableEntries : ℕ → List (List ℕ × Json) → Bool
  | _, [] => true
  | 0, _ :: _ => false
  | limit + 1, (key, v) :: entries =>
    encodable key && v.packable limit && packableEntries (limit + 1) entries

end

/-- How deep msgpack packs. -/
def recurseLimit : ℕ := 511

/-- What comes of `json.loads` : a value, a `JSONDecodeError`, or another exception. -/
inductive Loaded
  | value (v : Json)
  | invalid
  | raises (error : String)

/-- The modules that the bridge uses. `packb` gives nothing where it raises. -/
structure Modules where
  loads : List ℕ → Loaded
  packb : Json → Option (List UInt8)
  unpackb : List UInt8 → Option Json

/-- What is documented of a value. -/
structure Modules.Documented (m : Modules) (v : Json) : Prop where
  packs : (m.packb v).isSome = v.packable recurseLimit
  unpacks : ∀ payload, m.packb v = some payload → m.unpackb payload = some v

/-! ## Lines -/

/-- A continuation byte. -/
def isContinuation (b : UInt8) : Bool := 0x80 ≤ b && b ≤ 0xBF

def continued (lead : ℕ) (bs : List UInt8) : ℕ := bs.foldl (fun v b => v * 64 + b.toNat % 64) lead

/-- `bytes.decode` : the code points, unless the bytes are no UTF-8. -/
def decode : List UInt8 → Option (List ℕ)
  | [] => some []
  | a :: rest =>
    if a < 0x80 then (decode rest).map (a.toNat :: ·)
    else if 0xC2 ≤ a && a ≤ 0xDF then
      match rest with
      | b :: rest =>
        if isContinuation b then (decode rest).map (continued (a.toNat % 32) [b] :: ·) else none
      | _ => none
    else if 0xE0 ≤ a && a ≤ 0xEF then
      match rest with
      | b :: c :: rest =>
        let point := continued (a.toNat % 16) [b, c]
        if isContinuation b && isContinuation c && decide (0x800 ≤ point) && encodable [point] then
          (decode rest).map (point :: ·)
        else none
      | _ => none
    else if 0xF0 ≤ a && a ≤ 0xF4 then
      match rest with
      | b :: c :: d :: rest =>
        let point := continued (a.toNat % 8) [b, c, d]
        if isContinuation b && isContinuation c && isContinuation d &&
            decide (0x10000 ≤ point ∧ point ≤ 0x10FFFF) then
          (decode rest).map (point :: ·)
        else none
      | _ => none
    else none

/-- The lines that have ended, each with its newline, and the rest. -/
def splitLines : List UInt8 → List (List UInt8) × List UInt8
  | [] => ([], [])
  | b :: bs =>
    match splitLines bs with
    | (lines, rest) =>
      if b = 10 then ([b] :: lines, rest)
      else
        match lines with
        | [] => ([], b :: rest)
        | line :: lines => ((b :: line) :: lines, rest)

/-! ## Frames -/

/-- `MAX_FRAME_BYTES`. -/
def maxFrameBytes : ℕ := 100 * 1024 * 1024

/-- `_HEADER.pack`. -/
def packHeader (length : ℕ) : Option (List UInt8) :=
  if length < 2 ^ 32 then
    some [UInt8.ofNat (length / 2 ^ 24), UInt8.ofNat (length / 2 ^ 16),
      UInt8.ofNat (length / 2 ^ 8), UInt8.ofNat length]
  else none

/-- `_HEADER.unpack`. -/
def unpackHeader (a b c d : UInt8) : ℕ :=
  a.toNat * 2 ^ 24 + b.toNat * 2 ^ 16 + c.toNat * 2 ^ 8 + d.toNat

inductive ReadError
  | tooLarge (length : ℕ)
  | unpack
  deriving DecidableEq

/-- What `read_frame` finds : nothing yet, an error, or a value before the other bytes. -/
inductive ReadResult
  | incomplete
  | error (e : ReadError)
  | value (v : Json) (rest : List UInt8)

/-- `read_frame`. -/
def readFrame (m : Modules) : List UInt8 → ReadResult
  | a :: b :: c :: d :: bytes =>
    let length := unpackHeader a b c d
    if maxFrameBytes < length then .error (.tooLarge length)
    else if bytes.length < length then .incomplete
    else
      match m.unpackb (bytes.take length) with
      | none => .error .unpack
      | some v => .value v (bytes.drop length)
  | _ => .incomplete

/-- Read frames until none is complete. Each frame has four bytes at least, so that as many frames
as there are bytes are enough. -/
def readFrames (m : Modules) : ℕ → List UInt8 → Except ReadError (List Json)
  | 0, _ => .ok []
  | fuel + 1, bytes =>
    match readFrame m bytes with
    | .incomplete => .ok []
    | .error e => .error e
    | .value v rest => (readFrames m fuel rest).map (v :: ·)

/-! ## The bridge -/

/-- What ends the bridge. -/
inductive BridgeError
  | limitOverrun
  | unicodeDecode
  | loads (error : String)
  | packb
  | header
  deriving DecidableEq

/-- `_write_stdin_line` : the bytes that are written for a line. -/
def writeStdinLine (m : Modules) (line : List UInt8) : Except BridgeError (List UInt8) :=
  match decode line with
  | none => .error .unicodeDecode
  | some text =>
    match m.loads text with
    | .invalid => .ok []
    | .raises error => .error (.loads error)
    | .value v =>
      match m.packb v with
      | none => .error .packb
      | some payload =>
        match packHeader payload.length with
        | none => .error .header
        | some header => .ok (header ++ payload)

/-- The bytes read and not yet used, those written, and the error that ended the bridge. -/
structure Bridge where
  buffer : List UInt8
  written : List UInt8
  ended : Option BridgeError
  deriving DecidableEq

/-- `StreamReader.readline`, or the same without a limit. -/
inductive Line
  | wait
  | overrun
  | line (line rest : List UInt8)

def exceeds (limit : Option ℕ) (n : ℕ) : Bool := limit.any (· < n)

def takeLine (limit : Option ℕ) (buffer : List UInt8) : Line :=
  match splitLines buffer with
  | ([], rest) => if exceeds limit rest.length then .overrun else .wait
  | (line :: _, _) =>
    if exceeds limit (line.length - 1) then .overrun else .line line (buffer.drop line.length)

/-- The loop over the lines in the buffer. -/
def readLines (m : Modules) (limit : Option ℕ) : ℕ → Bridge → Bridge
  | 0, b => b
  | fuel + 1, b =>
    match takeLine limit b.buffer with
    | .wait => b
    | .overrun => { b with ended := some .limitOverrun }
    | .line line rest =>
      match writeStdinLine m line with
      | .error e => { b with buffer := rest, ended := some e }
      | .ok bytes =>
        readLines m limit fuel { b with buffer := rest, written := b.written ++ bytes }

/-- A chunk arrives. -/
def feed (m : Modules) (limit : Option ℕ) (b : Bridge) (chunk : List UInt8) : Bridge :=
  if b.ended.isSome then b
  else readLines m limit (b.buffer.length + chunk.length + 1) { b with buffer := b.buffer ++ chunk }

def feedAll (m : Modules) (limit : Option ℕ) (chunks : List (List UInt8)) : Bridge :=
  chunks.foldl (feed m limit) ⟨[], [], none⟩

/-- The default limit of a `StreamReader`. -/
def readerLimit : ℕ := 65536

/-- `_forward_stdin_async`, while stdin is open. -/
def forwardStdinAsync (m : Modules) (chunks : List (List UInt8)) : Bridge :=
  feedAll m (some readerLimit) chunks

/-- `_forward_stdin_windows`, while stdin is open. -/
def forwardStdinWindows (m : Modules) (chunks : List (List UInt8)) : Bridge := feedAll m none chunks

/-! ## Faithfulness -/

/-- The values of the lines that are valid JSON. -/
def jsonLines (m : Modules) (lines : List (List UInt8)) : List Json :=
  lines.filterMap fun line =>
    match (decode line).map m.loads with
    | some (.value v) => some v
    | _ => none

/-- Both paths write the same bytes and go on, and the daemon reads from them the values of exactly
the lines that are valid JSON, in order. -/
def Faithful (m : Modules) (chunks : List (List UInt8)) : Prop :=
  (forwardStdinAsync m chunks).ended = none ∧ (forwardStdinWindows m chunks).ended = none ∧
    (forwardStdinAsync m chunks).written = (forwardStdinWindows m chunks).written ∧
    (readFrames m (forwardStdinAsync m chunks).written.length
      (forwardStdinAsync m chunks).written).toOption =
      some (jsonLines m (splitLines chunks.flatten).1)

/-- The line has at most 64 KiB and is UTF-8. What it loads to is no exception but a decode error,
and a value can be packed into a frame that is not too large. -/
def Forwardable (m : Modules) (line : List UInt8) : Prop :=
  line.length ≤ readerLimit + 1 ∧
    match (decode line).map m.loads with
    | none => False
    | some (.raises _) => False
    | some .invalid => True
    | some (.value v) =>
      v.packable recurseLimit = true ∧ ∀ payload, m.packb v = some payload →
        payload.length ≤ maxFrameBytes

/-! ## Splitting into lines -/

theorem splitLines_append (ys : List UInt8) : ∀ xs : List UInt8, splitLines (xs ++ ys) =
    ((splitLines xs).1 ++ (splitLines ((splitLines xs).2 ++ ys)).1,
      (splitLines ((splitLines xs).2 ++ ys)).2)
  | [] => rfl
  | b :: bs => by
    have ih := splitLines_append ys bs
    simp only [List.cons_append, splitLines]
    rcases hbs : splitLines bs with ⟨_ | ⟨line, lines⟩, rest⟩ <;> rw [hbs] at ih <;>
      by_cases hb : b = 10 <;> simp [ih, hb, splitLines]

theorem splitLines_flatten : ∀ xs : List UInt8,
    (splitLines xs).1.flatten ++ (splitLines xs).2 = xs
  | [] => rfl
  | b :: bs => by
    have ih := splitLines_flatten bs
    simp only [splitLines]
    rcases hbs : splitLines bs with ⟨_ | ⟨line, lines⟩, rest⟩ <;> rw [hbs] at ih <;>
      by_cases hb : b = 10 <;> simpa [hb] using ih

/-- The first line is the start of the bytes, the other lines those of the others. -/
theorem splitLines_drop : ∀ {buffer line : List UInt8} {lines : List (List UInt8)}
    {rest : List UInt8}, splitLines buffer = (line :: lines, rest) →
    splitLines (buffer.drop line.length) = (lines, rest) ∧ 0 < line.length ∧
      line.length ≤ buffer.length
  | [], _, _, _, h => by simp [splitLines] at h
  | b :: bs, line, lines, rest, h => by
    simp only [splitLines] at h
    rcases hbs : splitLines bs with ⟨_ | ⟨first, others⟩, after⟩ <;> rw [hbs] at h <;>
      by_cases hb : b = 10
    · simp only [if_pos hb, Prod.mk.injEq, List.cons.injEq] at h
      obtain ⟨⟨rfl, rfl⟩, rfl⟩ := h
      simp [hbs]
    · simp [if_neg hb] at h
    · simp only [if_pos hb, Prod.mk.injEq, List.cons.injEq] at h
      obtain ⟨⟨rfl, rfl⟩, rfl⟩ := h
      simp [hbs]
    · simp only [if_neg hb, Prod.mk.injEq, List.cons.injEq] at h
      obtain ⟨⟨rfl, rfl⟩, rfl⟩ := h
      obtain ⟨hdrop, -, hle⟩ := splitLines_drop hbs
      exact ⟨hdrop, Nat.succ_pos _, Nat.succ_le_succ hle⟩

theorem newline_notMem_rest : ∀ xs : List UInt8, 10 ∉ (splitLines xs).2
  | [] => by simp [splitLines]
  | b :: bs => by
    have ih := newline_notMem_rest bs
    simp only [splitLines]
    rcases hbs : splitLines bs with ⟨_ | ⟨line, lines⟩, rest⟩ <;> rw [hbs] at ih <;>
      by_cases hb : b = 10 <;> simp_all [eq_comm]

/-- Bytes without a newline are in the first line, or in the rest where there is none. -/
theorem le_first (ys : List UInt8) : ∀ {xs : List UInt8}, 10 ∉ xs →
    (∃ line lines, (splitLines (xs ++ ys)).1 = line :: lines ∧ xs.length ≤ line.length - 1) ∨
      (splitLines (xs ++ ys)).1 = [] ∧ xs.length ≤ (splitLines (xs ++ ys)).2.length
  | [], _ => by
    rcases (splitLines ([] ++ ys)).1 with _ | ⟨line, lines⟩
    · exact Or.inr ⟨rfl, Nat.zero_le _⟩
    · exact Or.inl ⟨line, lines, rfl, Nat.zero_le _⟩
  | b :: bs, h => by
    obtain ⟨hb, hbs⟩ : b ≠ 10 ∧ 10 ∉ bs := by simpa [eq_comm] using h
    simp only [List.cons_append, splitLines, if_neg hb]
    rcases hs : splitLines (bs ++ ys) with ⟨_ | ⟨line, lines⟩, rest⟩
    · rcases le_first ys hbs with ⟨line, lines, hl, -⟩ | ⟨-, hle⟩ <;> rw [hs] at *
      · cases hl
      · exact Or.inr ⟨rfl, Nat.succ_le_succ hle⟩
    · obtain ⟨-, hpos, -⟩ := splitLines_drop hs
      rcases le_first ys hbs with ⟨first, others, hl, hle⟩ | ⟨hl, -⟩ <;> rw [hs] at hl <;> cases hl
      refine Or.inl ⟨_, _, rfl, ?_⟩
      simp only [List.length_cons]
      omega

/-! ## Reading the lines -/

variable {limit : Option ℕ}

theorem exceeds_mono {n k : ℕ} (hle : n ≤ k) (h : exceeds limit n = true) :
    exceeds limit k = true := by
  cases limit with
  | none => exact h
  | some limit =>
    simp only [exceeds, Option.any_some, decide_eq_true_eq] at h ⊢
    omega

/-- The line is not over the limit and raises nothing. -/
def passes (m : Modules) (limit : Option ℕ) (line : List UInt8) : Bool :=
  !exceeds limit (line.length - 1) && (writeStdinLine m line).isOk

/-- All that has arrived passes. -/
def allPass (m : Modules) (limit : Option ℕ) (bytes : List UInt8) : Bool :=
  (splitLines bytes).1.all (passes m limit) && !exceeds limit (splitLines bytes).2.length

/-- What is written for a line, nothing where it raises. -/
def lineBytes (m : Modules) (line : List UInt8) : List UInt8 :=
  (writeStdinLine m line).toOption.getD []

/-- The bridge after these bytes, where all pass. -/
def after (m : Modules) (bytes : List UInt8) : Bridge :=
  ⟨(splitLines bytes).2, (splitLines bytes).1.flatMap (lineBytes m), none⟩

theorem readLines_spec (m : Modules) (limit : Option ℕ) : ∀ (fuel : ℕ) (b : Bridge),
    b.ended = none → b.buffer.length < fuel →
    if allPass m limit b.buffer then
      readLines m limit fuel b =
        { after m b.buffer with written := b.written ++ (after m b.buffer).written }
    else (readLines m limit fuel b).ended.isSome
  | fuel + 1, ⟨buffer, written, ended⟩, (hended : ended = none), hfuel => by
    subst hended
    have hfuel : buffer.length < fuel + 1 := hfuel
    rcases hs : splitLines buffer with ⟨_ | ⟨line, lines⟩, rest⟩
    · by_cases hexceeds : exceeds limit rest.length = true
      · simp [allPass, hs, hexceeds, readLines, takeLine]
      · have hrest := splitLines_flatten buffer
        rw [hs] at hrest
        obtain rfl : rest = buffer := hrest
        simp [allPass, hs, hexceeds, readLines, takeLine, after]
    · obtain ⟨hdrop, hpos, hle⟩ := splitLines_drop hs
      by_cases hexceeds : exceeds limit (line.length - 1) = true
      · simp [allPass, hs, passes, hexceeds, readLines, takeLine]
      · rcases hw : writeStdinLine m line with e | bytes
        · simp [allPass, hs, passes, hexceeds, hw, readLines, takeLine, Except.isOk, Except.toBool]
        · have ih := readLines_spec m limit fuel ⟨buffer.drop line.length, written ++ bytes, none⟩
            rfl (by simp only [List.length_drop]; omega)
          simpa [allPass, hs, hdrop, passes, hexceeds, hw, readLines, takeLine, Except.isOk,
            Except.toBool, after, lineBytes, Except.toOption] using ih

variable {m : Modules}

/-- What does not pass does not pass with more bytes either. -/
theorem allPass_of_append {xs ys : List UInt8}
    (h : allPass m limit (xs ++ ys) = true) : allPass m limit xs = true := by
  simp only [allPass, splitLines_append ys xs, List.all_append, Bool.and_eq_true,
    Bool.not_eq_true'] at h ⊢
  obtain ⟨⟨hlines, hmore⟩, hrest⟩ := h
  refine ⟨hlines, Bool.eq_false_iff.2 fun hexceeds => ?_⟩
  rcases le_first ys (newline_notMem_rest xs) with ⟨line, lines, hl, hle⟩ | ⟨-, hle⟩
  · rw [hl, List.all_cons, passes, exceeds_mono hle hexceeds] at hmore
    cases hmore
  · rw [exceeds_mono hle hexceeds] at hrest
    cases hrest

/-- The bridge depends on the bytes, not on how they are cut. -/
theorem feed_spec {b : Bridge} {bytes chunk : List UInt8}
    (h : if allPass m limit bytes then b = after m bytes else b.ended.isSome) :
    if allPass m limit (bytes ++ chunk) then feed m limit b chunk = after m (bytes ++ chunk)
    else (feed m limit b chunk).ended.isSome := by
  by_cases hbytes : allPass m limit bytes = true
  · rw [if_pos hbytes] at h
    subst h
    have hread := readLines_spec m limit ((splitLines bytes).2.length + chunk.length + 1)
      { after m bytes with buffer := (splitLines bytes).2 ++ chunk } rfl (by simp)
    have hall : allPass m limit (bytes ++ chunk) =
        allPass m limit ((splitLines bytes).2 ++ chunk) := by
      simp only [allPass, Bool.and_eq_true, Bool.not_eq_true'] at hbytes
      simp [allPass, splitLines_append chunk bytes, hbytes.1]
    rw [hall]
    simpa [feed, after, splitLines_append chunk bytes] using hread
  · rw [if_neg hbytes] at h
    rw [if_neg (mt allPass_of_append hbytes), feed, if_pos h]
    exact h

theorem foldl_feed (m : Modules) (limit : Option ℕ) : ∀ (chunks : List (List UInt8))
    {b : Bridge} {bytes : List UInt8},
    (if allPass m limit bytes then b = after m bytes else b.ended.isSome) →
    if allPass m limit (bytes ++ chunks.flatten) then
      chunks.foldl (feed m limit) b = after m (bytes ++ chunks.flatten)
    else (chunks.foldl (feed m limit) b).ended.isSome
  | [], b, bytes, h => by simpa using h
  | chunk :: chunks, b, bytes, h => by
    have ih := @foldl_feed m limit chunks _ (bytes ++ chunk) (feed_spec h)
    simpa [List.append_assoc] using ih

theorem feedAll_spec (m : Modules) (limit : Option ℕ) (chunks : List (List UInt8)) :
    if allPass m limit chunks.flatten then feedAll m limit chunks = after m chunks.flatten
    else (feedAll m limit chunks).ended.isSome := by
  have hstart : allPass m limit [] = true := by cases limit <;> rfl
  exact @foldl_feed m limit chunks ⟨[], [], none⟩ [] (by rw [if_pos hstart]; rfl)

variable {chunks : List (List UInt8)}

/-- The bridge goes on exactly if all passes. -/
theorem feedAll_iff :
    (feedAll m limit chunks).ended = none ↔ allPass m limit chunks.flatten = true := by
  have h := feedAll_spec m limit chunks
  by_cases hall : allPass m limit chunks.flatten = true
  · rw [if_pos hall] at h
    exact ⟨fun _ => hall, fun _ => by rw [h]; rfl⟩
  · rw [if_neg hall] at h
    refine ⟨fun hnone => ?_, fun hall' => absurd hall' hall⟩
    rw [hnone] at h
    cases h

theorem feedAll_eq (h : allPass m limit chunks.flatten = true) :
    feedAll m limit chunks = after m chunks.flatten := by
  have hspec := feedAll_spec m limit chunks
  rwa [if_pos h] at hspec

/-! ## Reading the frames -/

variable {length : ℕ}

theorem unpackHeader_pack (h : length < 2 ^ 32) :
    unpackHeader (UInt8.ofNat (length / 2 ^ 24)) (UInt8.ofNat (length / 2 ^ 16))
      (UInt8.ofNat (length / 2 ^ 8)) (UInt8.ofNat length) = length := by
  simp only [unpackHeader, UInt8.toNat_ofNat']
  omega

theorem packHeader_length {header : List UInt8}
    (h : packHeader length = some header) : header.length = 4 := by
  obtain ⟨-, ⟨⟩⟩ := Option.ite_none_right_eq_some.1 h
  rfl

variable {v : Json}

/-- The frame of a payload is read back, unless the payload is too large. -/
theorem readFrame_frame {header payload : List UInt8}
    (hheader : packHeader payload.length = some header) (hv : m.unpackb payload = some v)
    (bytes : List UInt8) :
    readFrame m (header ++ payload ++ bytes) =
      if payload.length ≤ maxFrameBytes then .value v bytes
      else .error (.tooLarge payload.length) := by
  obtain ⟨hlt, ⟨⟩⟩ := Option.ite_none_right_eq_some.1 hheader
  simp only [List.cons_append, List.nil_append, readFrame, unpackHeader_pack hlt]
  by_cases hle : payload.length ≤ maxFrameBytes
  · simp [hle, not_lt.2 hle, hv]
  · simp [hle, not_le.1 hle]

/-- A payload that the line is packed into is not too large. -/
def Fits (m : Modules) (line : List UInt8) : Prop :=
  ∀ v payload, (decode line).map m.loads = some (.value v) → m.packb v = some payload →
    payload.length ≤ maxFrameBytes

theorem fits_iff {line payload : List UInt8}
    (hload : (decode line).map m.loads = some (.value v)) (hpack : m.packb v = some payload) :
    Fits m line ↔ payload.length ≤ maxFrameBytes := by
  refine ⟨fun h => h v payload hload hpack, fun h v' payload' hload' hpack' => ?_⟩
  rw [hload] at hload'
  cases hload'
  rw [hpack] at hpack'
  cases hpack'
  exact h

variable {line : List UInt8}

/-- What is written for a line that raises nothing : nothing where it is no JSON, else a frame. -/
theorem writeStdinLine_ok (h : (writeStdinLine m line).isOk = true) :
    ((decode line).map m.loads = some .invalid ∧ lineBytes m line = []) ∨
      ∃ v payload header, (decode line).map m.loads = some (.value v) ∧
        m.packb v = some payload ∧ packHeader payload.length = some header ∧
        lineBytes m line = header ++ payload := by
  rcases hdecode : decode line with _ | text
  · simp [writeStdinLine, hdecode, Except.isOk, Except.toBool] at h
  rcases hloads : m.loads text with v | _ | error
  · rcases hpack : m.packb v with _ | payload
    · simp [writeStdinLine, hdecode, hloads, hpack, Except.isOk, Except.toBool] at h
    rcases hheader : packHeader payload.length with _ | header
    · simp [writeStdinLine, hdecode, hloads, hpack, hheader, Except.isOk, Except.toBool] at h
    · refine Or.inr ⟨v, payload, header, by simp [hloads], hpack, hheader, ?_⟩
      simp [lineBytes, writeStdinLine, hdecode, hloads, hpack, hheader, Except.toOption]
  · refine Or.inl ⟨by simp [hloads], ?_⟩
    simp [lineBytes, writeStdinLine, hdecode, hloads, Except.toOption]
  · simp [writeStdinLine, hdecode, hloads, Except.isOk, Except.toBool] at h

variable {lines : List (List UInt8)}

theorem jsonLines_cons_invalid (h : (decode line).map m.loads = some .invalid) :
    jsonLines m (line :: lines) = jsonLines m lines := by
  simp only [jsonLines, List.filterMap_cons, h]

theorem jsonLines_cons_value (h : (decode line).map m.loads = some (.value v)) :
    jsonLines m (line :: lines) = v :: jsonLines m lines := by
  simp only [jsonLines, List.filterMap_cons, h]

/-- The frames of the lines are read back as their values, if all of them fit. -/
theorem readFrames_lines : ∀ {lines : List (List UInt8)} (fuel : ℕ),
    (∀ line ∈ lines, (writeStdinLine m line).isOk = true ∧
      ∀ v, (decode line).map m.loads = some (.value v) → m.Documented v) →
    (lines.flatMap (lineBytes m)).length ≤ fuel →
    ((readFrames m fuel (lines.flatMap (lineBytes m))).toOption = some (jsonLines m lines) ↔
      ∀ line ∈ lines, Fits m line)
  | [], fuel, _, _ => by cases fuel <;> simp [readFrames, readFrame, jsonLines, Except.toOption]
  | line :: lines, fuel, h, hfuel => by
    obtain ⟨⟨hok, hdoc⟩, hlines⟩ := List.forall_mem_cons.1 h
    rw [List.forall_mem_cons]
    rw [List.flatMap_cons] at hfuel ⊢
    rcases writeStdinLine_ok hok with ⟨hload, hbytes⟩ | ⟨v, payload, header, hload, hpack, hheader,
      hbytes⟩ <;> rw [hbytes] at hfuel ⊢
    · have hfits : Fits m line := fun v payload hv => by rw [hload] at hv; cases hv
      rw [jsonLines_cons_invalid hload, and_iff_right hfits]
      exact readFrames_lines fuel hlines hfuel
    · rw [jsonLines_cons_value hload, fits_iff hload hpack]
      have hread := readFrame_frame hheader ((hdoc v hload).unpacks payload hpack)
        (lines.flatMap (lineBytes m))
      have hlength := packHeader_length hheader
      simp only [List.length_append, hlength] at hfuel
      cases fuel with
      | zero => omega
      | succ fuel =>
        rw [readFrames, hread]
        by_cases hle : payload.length ≤ maxFrameBytes
        · rw [if_pos hle, and_iff_right hle, ← readFrames_lines fuel hlines (by omega)]
          rcases hrest : readFrames m fuel (lines.flatMap (lineBytes m)) with e | vs <;>
            simp [hrest, Except.map, Except.toOption]
        · simp [Except.toOption, hle]

/-! ## When the bridge is faithful -/

theorem packHeader_isSome (h : length ≤ maxFrameBytes) :
    (packHeader length).isSome = true := by
  have hlt : length < 2 ^ 32 := by
    unfold maxFrameBytes at h
    omega
  rw [packHeader, if_pos hlt]
  rfl

theorem forwardable_iff (hdoc : ∀ v, (decode line).map m.loads = some (.value v) → m.Documented v) :
    Forwardable m line ↔ line.length ≤ readerLimit + 1 ∧ (writeStdinLine m line).isOk = true ∧
      Fits m line := by
  unfold Forwardable
  rcases hdecode : decode line with _ | text
  · simp [writeStdinLine, hdecode, Except.isOk, Except.toBool]
  rcases hloads : m.loads text with v | _ | error
  · have hload : (decode line).map m.loads = some (.value v) := by simp [hdecode, hloads]
    have hpacks := (hdoc v hload).packs
    rcases hpack : m.packb v with _ | payload <;> rw [hpack] at hpacks
    · simp [writeStdinLine, hdecode, hloads, hpack, ← hpacks, Except.isOk, Except.toBool]
    · rw [fits_iff hload hpack]
      simp only [Option.map_some, hloads, hpack, ← hpacks, Option.isSome_some, Option.some.injEq,
        forall_eq', true_and]
      refine and_congr_right fun _ => (and_iff_right_of_imp fun hle => ?_).symm
      obtain ⟨header, hheader⟩ := Option.isSome_iff_exists.1 (packHeader_isSome hle)
      simp [writeStdinLine, hdecode, hloads, hpack, hheader, Except.isOk, Except.toBool]
  · simp [writeStdinLine, hdecode, hloads, Except.isOk, Except.toBool, Fits]
  · simp [writeStdinLine, hdecode, hloads, Except.isOk, Except.toBool]

variable {bytes : List UInt8}

theorem allPass_some_iff :
    allPass m (some readerLimit) bytes = true ↔
      (∀ line ∈ (splitLines bytes).1, line.length ≤ readerLimit + 1 ∧
        (writeStdinLine m line).isOk = true) ∧ (splitLines bytes).2.length ≤ readerLimit := by
  simp only [allPass, passes, exceeds, Option.any_some, Bool.and_eq_true, Bool.not_eq_true',
    List.all_eq_true, decide_eq_false_iff_not, not_lt, Nat.sub_le_iff_le_add]

theorem allPass_none_iff :
    allPass m none bytes = true ↔
      ∀ line ∈ (splitLines bytes).1, (writeStdinLine m line).isOk = true := by
  simp [allPass, passes, exceeds]

/-- The bridge is faithful exactly if every line can be forwarded and the rest is not yet over the
limit. -/
theorem faithful_iff (m : Modules) (chunks : List (List UInt8))
    (hdoc : ∀ line ∈ (splitLines chunks.flatten).1, ∀ v,
      (decode line).map m.loads = some (.value v) → m.Documented v) :
    Faithful m chunks ↔ (∀ line ∈ (splitLines chunks.flatten).1, Forwardable m line) ∧
      (splitLines chunks.flatten).2.length ≤ readerLimit := by
  have hforward : (∀ line ∈ (splitLines chunks.flatten).1, Forwardable m line) ↔
      ∀ line ∈ (splitLines chunks.flatten).1, line.length ≤ readerLimit + 1 ∧
        (writeStdinLine m line).isOk = true ∧ Fits m line :=
    forall₂_congr fun line hline => forwardable_iff (hdoc line hline)
  rw [hforward]
  unfold Faithful forwardStdinAsync forwardStdinWindows
  rw [feedAll_iff, feedAll_iff]
  constructor
  · rintro ⟨hposix, -, -, hread⟩
    rw [feedAll_eq hposix] at hread
    obtain ⟨hlines, hrest⟩ := allPass_some_iff.1 hposix
    have hfits := (readFrames_lines _ (fun line hline =>
      ⟨(hlines line hline).2, hdoc line hline⟩) le_rfl).1 hread
    exact ⟨fun line hline => ⟨(hlines line hline).1, (hlines line hline).2, hfits line hline⟩,
      hrest⟩
  · rintro ⟨hlines, hrest⟩
    have hposix := allPass_some_iff.2
      ⟨fun line hline => ⟨(hlines line hline).1, (hlines line hline).2.1⟩, hrest⟩
    have hwindows := allPass_none_iff.2 fun line hline => (hlines line hline).2.1
    rw [feedAll_eq hposix, feedAll_eq hwindows]
    refine ⟨hposix, hwindows, rfl, (readFrames_lines _ (fun line hline => ?_) le_rfl).2
      fun line hline => (hlines line hline).2.2⟩
    exact ⟨(hlines line hline).2.1, hdoc line hline⟩

/-- Modules for the digits `0` to `9`, which pack to one byte. -/
def digitModules : Modules where
  loads
    | [p, 10] => if 48 ≤ p ∧ p ≤ 57 then .value (.int (p - 48 : ℕ)) else .invalid
    | _ => .invalid
  packb
    | .int n => if 0 ≤ n ∧ n ≤ 127 then some [UInt8.ofNat n.toNat] else none
    | _ => none
  unpackb
    | [b] => some (.int b.toNat)
    | _ => none

theorem digitModules_documented {n : ℕ} (h : n ≤ 9) :
    digitModules.Documented (.int n) where
  packs := by
    have h1 : (0 : ℤ) ≤ n ∧ (n : ℤ) ≤ 127 := by omega
    have h2 : (-2 ^ 63 : ℤ) ≤ n ∧ (n : ℤ) ≤ 2 ^ 64 - 1 := by omega
    simp only [digitModules, if_pos h1, Json.packable, Option.isSome_some]
    exact (decide_eq_true h2).symm
  unpacks payload hpack := by
    obtain ⟨-, ⟨⟩⟩ := Option.ite_none_right_eq_some.1 hpack
    simp only [digitModules, Int.toNat_natCast, UInt8.toNat_ofNat']
    rw [Nat.mod_eq_of_lt (by omega)]

theorem splitLines_digits : splitLines [[55], [10, 120], [10, 57, 10]].flatten =
    ([[55, 10], [120, 10], [57, 10]], []) := by decide

theorem faithful_digits : Faithful digitModules [[55], [10, 120], [10, 57, 10]] :=
  (faithful_iff digitModules [[55], [10, 120], [10, 57, 10]] (by
    rw [splitLines_digits]
    simp only [List.forall_mem_cons]
    refine ⟨fun v hv => ?_, fun v hv => ?_, fun v hv => ?_, fun _ h => absurd h List.not_mem_nil⟩
    · obtain ⟨⟩ := hv
      exact digitModules_documented (by decide : 7 ≤ 9)
    · cases hv
    · obtain ⟨⟩ := hv
      exact digitModules_documented (by decide : 9 ≤ 9))).2 (by
    rw [splitLines_digits]
    simp only [List.forall_mem_cons]
    refine ⟨⟨⟨by decide, rfl, ?_⟩, ⟨by decide, trivial⟩, ⟨by decide, rfl, ?_⟩,
      fun _ h => absurd h List.not_mem_nil⟩, by decide⟩ <;>
    · rintro payload ⟨⟩
      decide)

/-- Bytes that are no UTF-8 end the bridge, where the line should be skipped. -/
theorem undecodable_line_ends_bridge : ¬ Faithful digitModules [[0xFF, 10], [55, 10]] := by
  intro h
  have hended : (forwardStdinAsync digitModules [[0xFF, 10], [55, 10]]).ended =
      some .unicodeDecode := by decide
  rw [h.1] at hended
  cases hended

end ChunkHound.ProxyBridge
