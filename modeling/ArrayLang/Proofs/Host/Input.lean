import ArrayLang.Host.Console
import ArrayLang.Proofs.Text.Bytes
import ArrayLang.Proofs.Text.Decimal

/-!
# Printed integers read back

Integers are printed a line each.  When spaces and tabs are added around the numbers and blank lines
between them, the same integers are read, one with each call.  After the last of them every call
fails, since the input has come to its end.
-/

namespace ArrayLang.Host

open Text Machine

/-! ## Texts of integers -/

/-- Spaces and tabs. -/
def IsPadding (bytes : List UInt8) : Prop := ∀ b ∈ bytes, b = 32 ∨ b = 9

instance (bytes : List UInt8) : Decidable (IsPadding bytes) :=
  List.decidableBAll _ bytes

/-- A text in which spaces and tabs are added around the lines of a printed text, and blank lines
are inserted.  The last blank line may lack its end.  All lines are short enough to be read. -/
inductive Spaced : (printed text : List UInt8) → Prop
  | ended {padding : List UInt8} : IsPadding padding → padding.length < lineLimit →
      Spaced [] padding
  | blank {padding printed text : List UInt8} : IsPadding padding → padding.length < lineLimit →
      Spaced printed text → Spaced printed (padding ++ 10 :: text)
  | line {left line right printed text : List UInt8} : 10 ∉ line → IsPadding left →
      IsPadding right → (left ++ line ++ right).length < lineLimit → Spaced printed text →
      Spaced (line ++ 10 :: printed) (left ++ line ++ right ++ 10 :: text)

/-- The bytes of an integer. -/
def numberBytes (value : Int64) : List UInt8 := bytesOfText (toString value.toInt)

/-- The bytes of integers, a line each. -/
def printedBytes (values : List Int64) : List UInt8 :=
  values.flatMap fun value => numberBytes value ++ [10]

theorem printedBytes_cons (value : Int64) (values : List Int64) :
    printedBytes (value :: values) = numberBytes value ++ 10 :: printedBytes values := by
  simp [printedBytes]

theorem numberBytes_eq_map (value : Int64) :
    numberBytes value = (toString value.toInt).toList.map fun c => UInt8.ofNat c.toNat := by
  rw [numberBytes, ← bytesOfText_ofList_of_ascii, String.ofList_toList]
  intro c hc
  have hrange := toNat_of_mem_repr hc
  omega

theorem toNat_of_mem_numberBytes {value : Int64} {b : UInt8} (hb : b ∈ numberBytes value) :
    45 ≤ b.toNat ∧ b.toNat ≤ 57 := by
  rw [numberBytes_eq_map, List.mem_map] at hb
  obtain ⟨c, hc, rfl⟩ := hb
  have hrange := toNat_of_mem_repr hc
  rw [UInt8.toNat_ofNat', Nat.mod_eq_of_lt (by omega)]
  exact hrange

theorem map_charOfByte_numberBytes (value : Int64) :
    (numberBytes value).map charOfByte = (toString value.toInt).toList := by
  rw [numberBytes_eq_map, List.map_map]
  refine (List.map_congr_left fun c hc => ?_).trans (List.map_id _)
  have hrange := toNat_of_mem_repr hc
  exact charOfByte_ofNat (by omega)

theorem numberBytes_ne_nil (value : Int64) : numberBytes value ≠ [] := by
  intro hnil
  have hread := decimal?_toString value
  rw [← map_charOfByte_numberBytes, hnil] at hread
  cases hread

/-! ## Lines -/

/-- Spaces and tabs around digits and signs.  A line without the latter is blank. -/
structure Padded (left middle right : List UInt8) : Prop where
  left : IsPadding left
  middle : ∀ b ∈ middle, 45 ≤ b.toNat ∧ b.toNat ≤ 57
  right : IsPadding right

theorem padded_blank {padding : List UInt8} (h : IsPadding padding) : Padded padding [] [] :=
  ⟨h, fun _ hb => absurd hb List.not_mem_nil, fun _ hb => absurd hb List.not_mem_nil⟩

theorem padded_number {left right : List UInt8} (hleft : IsPadding left)
    (hright : IsPadding right) (value : Int64) : Padded left (numberBytes value) right :=
  ⟨hleft, fun _ => toNat_of_mem_numberBytes, hright⟩

theorem IsPadding.toNat {bytes : List UInt8} (h : IsPadding bytes) {b : UInt8} (hb : b ∈ bytes) :
    b.toNat = 32 ∨ b.toNat = 9 := by
  rcases h b hb with rfl | rfl
  · exact Or.inl rfl
  · exact Or.inr rfl

/-- The bytes of a line are ASCII.  None of them ends the line, and none is a carriage return, which
would be dropped at the end. -/
theorem Padded.toNat {left middle right : List UInt8} (h : Padded left middle right) {b : UInt8}
    (hb : b ∈ left ++ middle ++ right) : b.toNat ≠ 10 ∧ b.toNat ≠ 13 ∧ b.toNat < 128 := by
  rw [List.mem_append, List.mem_append] at hb
  rcases hb with (hb | hb) | hb
  · have hvalue := h.left.toNat hb
    omega
  · have hrange := h.middle b hb
    omega
  · have hvalue := h.right.toNat hb
    omega

theorem isBlank_charOfByte_iff {b : UInt8} (hb : b.toNat < 128) :
    isBlank (charOfByte b) = true ↔ 9 ≤ b.toNat ∧ b.toNat ≤ 13 ∨ b.toNat = 32 := by
  have hall : ∀ n < 128, isBlank (Char.ofNat n) = true ↔ 9 ≤ n ∧ n ≤ 13 ∨ n = 32 := by decide
  exact hall b.toNat hb

section

variable {α : Type} {p : α → Bool}

theorem dropWhile_append_of_neg {middle : List α} (h : ∀ a ∈ middle, p a = false)
    (hne : middle ≠ []) (rest : List α) : (middle ++ rest).dropWhile p = middle ++ rest := by
  obtain ⟨a, tail, rfl⟩ := List.exists_cons_of_ne_nil hne
  exact List.dropWhile_cons_of_neg (by simp [h a List.mem_cons_self])

/-- What is left when a list is trimmed at both ends. -/
theorem reverse_dropWhile_reverse_dropWhile {left middle right : List α}
    (hleft : ∀ a ∈ left, p a = true) (hmiddle : ∀ a ∈ middle, p a = false)
    (hright : ∀ a ∈ right, p a = true) :
    (((left ++ middle ++ right).dropWhile p).reverse.dropWhile p).reverse = middle := by
  by_cases hne : middle = []
  · rw [hne, List.append_nil, List.dropWhile_append_of_pos hleft, ← List.append_nil right,
      List.dropWhile_append_of_pos hright]
    rfl
  · have hmiddle' : ∀ a ∈ middle.reverse, p a = false :=
      fun a ha => hmiddle a (List.mem_reverse.mp ha)
    have hright' : ∀ a ∈ right.reverse, p a = true :=
      fun a ha => hright a (List.mem_reverse.mp ha)
    have hne' : middle.reverse ≠ [] := by simpa using hne
    have hkept : (middle.reverse ++ []).dropWhile p = middle.reverse ++ [] :=
      dropWhile_append_of_neg hmiddle' hne' []
    rw [List.append_nil] at hkept
    rw [List.append_assoc, List.dropWhile_append_of_pos hleft,
      dropWhile_append_of_neg hmiddle hne, List.reverse_append,
      List.dropWhile_append_of_pos hright', hkept, List.reverse_reverse]

end

/-- A blank character. -/
def isBlankGlyph : Glyph → Bool
  | .char c => isBlank c
  | .stray _ => false

theorem trim_eq (line : List Glyph) :
    Input.trim line =
      ((line.dropWhile isBlankGlyph).reverse.dropWhile isBlankGlyph).reverse := rfl

/-- A line is trimmed to the number in it. -/
theorem trim_glyphs {left middle right : List UInt8} (h : Padded left middle right) :
    Input.trim (glyphs (left ++ middle ++ right)) =
      middle.map fun b => .char (charOfByte b) := by
  have hblank {bytes : List UInt8} (hbytes : IsPadding bytes) :
      ∀ g ∈ bytes.map fun b => Glyph.char (charOfByte b), isBlankGlyph g = true := by
    intro g hg
    obtain ⟨b, hb, rfl⟩ := List.mem_map.mp hg
    have hvalue := hbytes.toNat hb
    exact (isBlank_charOfByte_iff (by omega)).mpr (by omega)
  have hnumber : ∀ g ∈ middle.map fun b => Glyph.char (charOfByte b), isBlankGlyph g = false := by
    intro g hg
    obtain ⟨b, hb, rfl⟩ := List.mem_map.mp hg
    have hrange := h.middle b hb
    exact Bool.eq_false_iff.mpr (mt (isBlank_charOfByte_iff (by omega)).mp (by omega))
  rw [trim_eq, glyphs_of_ascii fun b hb => (h.toNat hb).2.2, List.map_append, List.map_append]
  exact reverse_dropWhile_reverse_dropWhile (hblank h.left) hnumber (hblank h.right)

namespace Input

/-! ## Reading a line -/

theorem next_of_ne_nil {bytes line : List UInt8} (hbytes : bytes ≠ [])
    (hline : bytes.takeWhile (· ≠ 10) = line) (hlength : line.length < lineLimit) :
    next (.bytes bytes) = .line (dropReturn line) (.bytes (bytes.drop (line.length + 1))) := by
  subst hline
  cases bytes with
  | nil => exact absurd rfl hbytes
  | cons b rest => exact if_pos hlength

theorem dropReturn_of_not_mem {line : List UInt8} (h : 13 ∉ line) : dropReturn line = line := by
  apply if_neg
  intro hlast
  exact h (List.mem_of_getLast? hlast)

section

variable {left middle right text : List UInt8}

theorem ne_newline_of_mem_line (h : Padded left middle right) :
    ∀ b ∈ left ++ middle ++ right, decide (b ≠ 10) = true := by
  intro b hb
  rw [decide_eq_true_eq]
  rintro rfl
  exact (h.toNat hb).1 rfl

theorem dropReturn_line (h : Padded left middle right) :
    dropReturn (left ++ middle ++ right) = left ++ middle ++ right :=
  dropReturn_of_not_mem fun hmem => (h.toNat hmem).2.1 rfl

/-- A line is offered without its end. -/
theorem next_line (h : Padded left middle right)
    (hlength : (left ++ middle ++ right).length < lineLimit) :
    next (.bytes (left ++ middle ++ right ++ 10 :: text)) =
      .line (left ++ middle ++ right) (.bytes text) := by
  have hline : (left ++ middle ++ right ++ 10 :: text).takeWhile (· ≠ 10) =
      left ++ middle ++ right := by
    rw [List.takeWhile_append_of_pos (ne_newline_of_mem_line h),
      List.takeWhile_cons_of_neg (by decide), List.append_nil]
  rw [next_of_ne_nil (by simp) hline hlength, dropReturn_line h, ← List.singleton_append,
    ← List.append_assoc, List.drop_left' (by simp; omega)]

/-- The last line is offered even if it has no end. -/
theorem next_last (h : Padded left middle right)
    (hlength : (left ++ middle ++ right).length < lineLimit)
    (hne : left ++ middle ++ right ≠ []) :
    next (.bytes (left ++ middle ++ right)) = .line (left ++ middle ++ right) (.bytes []) := by
  have hline : (left ++ middle ++ right).takeWhile (· ≠ 10) = left ++ middle ++ right := by
    rw [← List.append_nil (left ++ middle ++ right),
      List.takeWhile_append_of_pos (ne_newline_of_mem_line h)]
    rfl
  rw [next_of_ne_nil hne hline hlength, dropReturn_line h, List.drop_eq_nil_of_le (by simp)]

end

theorem readInt_of_line {input rest : Input} {text : List UInt8}
    (h : input.next = .line text rest) :
    input.readInt =
      let line := trim (glyphs text)
      if line.isEmpty then rest.readInt
      else
        match decimal? (chars line) with
        | .ok value => (.ok (Int64.ofInt value), rest)
        | .error why => (.error (.notAnInteger line why), rest) := by
  rw [readInt]
  split
  · next e rest' hnext =>
      rw [h] at hnext
      cases hnext
  · next text' rest' hnext =>
      rw [h] at hnext
      cases hnext
      rfl

theorem readInt_bytes_nil : readInt (.bytes []) = (.error .ended, .bytes []) := by
  rw [readInt]
  rfl

section

variable {left right padding text : List UInt8}

theorem readInt_of_blank {input rest : Input} (h : IsPadding padding)
    (hnext : input.next = .line padding rest) : input.readInt = rest.readInt := by
  have htrim := trim_glyphs (padded_blank h)
  simp only [List.append_nil] at htrim
  rw [readInt_of_line hnext, htrim]
  rfl

/-- Blank lines are passed over. -/
theorem readInt_blank (h : IsPadding padding) (hlength : padding.length < lineLimit) :
    readInt (.bytes (padding ++ 10 :: text)) = readInt (.bytes text) := by
  have hnext : next (.bytes (padding ++ [] ++ [] ++ 10 :: text)) =
      .line (padding ++ [] ++ []) (.bytes text) :=
    next_line (padded_blank h) (by simpa using hlength)
  simp only [List.append_nil] at hnext
  exact readInt_of_blank h hnext

theorem readInt_ended (h : IsPadding padding) (hlength : padding.length < lineLimit) :
    readInt (.bytes padding) = (.error .ended, .bytes []) := by
  by_cases hne : padding = []
  · rw [hne, readInt_bytes_nil]
  · have hnext := next_last (padded_blank h) (by simpa using hlength) (by simpa using hne)
    simp only [List.append_nil] at hnext
    rw [readInt_of_blank h hnext, readInt_bytes_nil]

/-- A number between blanks is read. -/
theorem readInt_number (hleft : IsPadding left) (hright : IsPadding right) (value : Int64)
    (hlength : (left ++ numberBytes value ++ right).length < lineLimit) :
    readInt (.bytes (left ++ numberBytes value ++ right ++ 10 :: text)) =
      (.ok value, .bytes text) := by
  have hpadded := padded_number hleft hright value
  have hchars : chars ((numberBytes value).map fun b => .char (charOfByte b)) =
      (toString value.toInt).toList := by
    rw [← map_charOfByte_numberBytes, chars, List.map_map]
    rfl
  have hne : ¬((numberBytes value).map fun b => Glyph.char (charOfByte b)).isEmpty = true := by
    simpa using numberBytes_ne_nil value
  rw [readInt_of_line (next_line hpadded hlength), trim_glyphs hpadded]
  simp only
  rw [if_neg hne, hchars, decimal?_toString]
  simp only [Int64.ofInt_toInt]

end

/-! ## Reading again and again -/

/-- The results of reading one integer after the other. -/
def readEach : (count : Nat) → Input → List (Except InputError Int64)
  | 0, _ => []
  | count + 1, input => input.readInt.1 :: readEach count input.readInt.2

theorem readEach_congr {input input' : Input} (h : input.readInt = input'.readInt)
    (count : Nat) : readEach count input = readEach count input' := by
  cases count with
  | zero => rfl
  | succ count => rw [readEach, readEach, h]

/-- At the end of the input every reading fails. -/
theorem readEach_ended {input : Input} (h : input.readInt = (.error .ended, .bytes []))
    (count : Nat) : readEach count input = List.replicate count (.error .ended) := by
  induction count generalizing input with
  | zero => rfl
  | succ count ih => rw [readEach, h, ih readInt_bytes_nil, List.replicate_succ]

end Input

theorem eq_nil_of_printedBytes_eq_nil {values : List Int64} (h : printedBytes values = []) :
    values = [] := by
  cases values with
  | nil => rfl
  | cons value values =>
      rw [printedBytes_cons] at h
      simp at h

/-- The first line of a printed text is the first integer. -/
theorem printedBytes_eq_line {values : List Int64} {line rest : List UInt8} (hline : 10 ∉ line)
    (h : printedBytes values = line ++ 10 :: rest) :
    ∃ value others, values = value :: others ∧ line = numberBytes value ∧
      rest = printedBytes others := by
  cases values with
  | nil => simp [printedBytes] at h
  | cons value others =>
      have hnumber : 10 ∉ numberBytes value :=
        fun hmem => absurd (toNat_of_mem_numberBytes hmem).1 (by decide)
      rw [printedBytes_cons] at h
      obtain ⟨rfl, rfl⟩ := eq_of_append_cons hnumber hline h
      exact ⟨value, others, rfl, rfl, rfl⟩

/-- From a text of integers the integers are read, and then nothing. -/
theorem readEach_spaced {values : List Int64} {text : List UInt8}
    (h : Spaced (printedBytes values) text) (count : Nat) :
    Input.readEach count (.bytes text) =
      (values.take count).map Except.ok ++
        List.replicate (count - values.length) (Except.error .ended) := by
  generalize hprinted : printedBytes values = printed at h
  -- The induction follows the lines of the text; a line with a number uses up the first value.
  induction h generalizing values count with
  | ended hpadding hlength =>
      rw [eq_nil_of_printedBytes_eq_nil hprinted,
        Input.readEach_ended (Input.readInt_ended hpadding hlength)]
      simp
  | blank hpadding hlength _ ih =>
      rw [Input.readEach_congr (Input.readInt_blank hpadding hlength)]
      exact ih count hprinted
  | line hline hleft hright hlength _ ih =>
      obtain ⟨value, others, rfl, rfl, rfl⟩ := printedBytes_eq_line hline hprinted
      cases count with
      | zero => simp [Input.readEach]
      | succ count =>
          rw [Input.readEach, Input.readInt_number hleft hright value hlength, ih count rfl]
          simp

/-! ## Calls of the host -/

/-- Call a function of the host with one list of arguments after the other: its answers, and the
console in the end. -/
def Function.serveEach (f : Function) (memory : Memory) :
    List (List UInt64) → Console → List (Except HostError (List UInt64)) × Console
  | [], console => ([], console)
  | args :: rest, console =>
    let reply := f.serve memory args console
    let others := f.serveEach reply.memory rest reply.host
    (reply.answer :: others.1, others.2)

/-- What a call answers that reads an integer. -/
def answerOf : Except InputError Int64 → Except HostError (List UInt64)
  | .ok value => .ok [value.toUInt64]
  | .error e => .error (.failed e.message)

theorem serve_readInt (memory : Memory) (args : List UInt64) (console : Console) :
    Function.readInt.serve memory args console =
      ⟨memory, { console with input := console.input.readInt.2 },
        answerOf console.input.readInt.1⟩ := by
  rcases hread : console.input.readInt with ⟨answer, input⟩
  cases answer with
  | ok value => simp only [Function.serve, hread, answerOf]
  | error e => simp only [Function.serve, hread, answerOf]

/-- Calls that read integers answer with what is read. -/
theorem serveEach_readInt (memory : Memory) (calls : List (List UInt64)) (console : Console) :
    (Function.readInt.serveEach memory calls console).1 =
      (Input.readEach calls.length console.input).map answerOf := by
  induction calls generalizing console with
  | nil => rfl
  | cons args rest ih =>
      rw [Function.serveEach, serve_readInt, List.length_cons, Input.readEach, List.map_cons]
      simp only
      rw [ih]

theorem serve_printInt (memory : Memory) (value : Int64) (console : Console) :
    Function.printInt.serve memory [value.toUInt64] console =
      ⟨memory,
        { console with stdout := console.stdout ++ (numberBytes value ++ [10]).toArray },
        .ok []⟩ := by
  have hline : bytesOfText (toString value.toInt ++ "\n") = numberBytes value ++ [10] := by
    rw [bytesOfText_append]
    rfl
  simp only [Function.serve, Console.print]
  rw [Int64.toInt64_toUInt64, hline]

/-- Calls that print integers add their lines to the first output. -/
theorem serveEach_printInt (memory : Memory) (values : List Int64) (console : Console) :
    Function.printInt.serveEach memory (values.map fun value => [value.toUInt64]) console =
      (values.map fun _ => .ok [],
        { console with stdout := console.stdout ++ (printedBytes values).toArray }) := by
  induction values generalizing console with
  | nil => simp [Function.serveEach, printedBytes]
  | cons value values ih =>
      rw [List.map_cons, Function.serveEach, serve_printInt]
      simp only
      rw [ih, printedBytes_cons]
      simp

/-- The first output after integers were printed to it, and nothing before. -/
def printedText (memory : Memory) (values : List Int64) (console : Console) : List UInt8 :=
  let calls := values.map fun value => [value.toUInt64]
  (Function.printInt.serveEach memory calls console.cleared).2.stdout.toList

theorem printedText_eq (memory : Memory) (values : List Int64) (console : Console) :
    printedText memory values console = printedBytes values := by
  simp [printedText, serveEach_printInt, Console.cleared]

/-- Integers that were printed are read back in their order, whatever spaces, tabs and blank lines
are added.  Every later call finds the end of the input. -/
theorem printed_integers_read_back (values : List Int64) (memory memory' : Memory)
    (printer reader : Console) {text : List UInt8}
    (htext : Spaced (printedText memory values printer) text) (calls : List (List UInt64)) :
    (Function.readInt.serveEach memory' calls { reader with input := .bytes text }).1 =
      (values.take calls.length).map (fun value => .ok [value.toUInt64]) ++
        List.replicate (calls.length - values.length)
          (.error (.failed "runtime: unexpected end of input")) := by
  rw [printedText_eq] at htext
  rw [serveEach_readInt, readEach_spaced htext, List.map_append, List.map_map,
    List.map_replicate]
  rfl

/-- The least integer and another one, with blank lines in front, between and behind. -/
theorem least_integer_reads_back :
    let text := bytesOfText " \t\n\t-9223372036854775808  \n\n7\n "
    (Function.readInt.serveEach (.zeros 0) [[], [5], [], []] { input := .bytes text }).1 =
      [.ok [0x8000000000000000], .ok [7],
        .error (.failed "runtime: unexpected end of input"),
        .error (.failed "runtime: unexpected end of input")] := by
  intro text
  have hspaced : Spaced (printedText (.zeros 0) [Int64.minValue, 7] {}) text := by
    have htext : text = [32, 9] ++ 10 :: ([9] ++ numberBytes Int64.minValue ++ [32, 32] ++
        10 :: ([] ++ 10 :: ([] ++ numberBytes 7 ++ [] ++ 10 :: [32]))) := by decide
    rw [printedText_eq, printedBytes_cons, printedBytes_cons, htext]
    have hlast : Spaced (printedBytes []) [32] := .ended (by decide) (by decide)
    have hseven : Spaced (numberBytes 7 ++ 10 :: printedBytes [])
        ([] ++ numberBytes 7 ++ [] ++ 10 :: [32]) :=
      .line (by decide) (by decide) (by decide) (by decide) hlast
    have hbetween := Spaced.blank (show IsPadding [] by decide) (by decide) hseven
    exact .blank (by decide) (by decide)
      (.line (by decide) (by decide) (by decide) (by decide) hbetween)
  exact printed_integers_read_back [Int64.minValue, 7] (.zeros 0) (.zeros 0) {} {} hspaced
    [[], [5], [], []]

end ArrayLang.Host
