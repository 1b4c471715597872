import ArrayLang.Code.Colour
import ArrayLang.Proofs.Text.Bytes

/-!
# Colour is all that is added

A style sequence is an escape byte, a bracket, parameters and the letter `m`.  When these sequences
are deleted from a listing in colour, the plain listing is left, byte for byte.
-/

namespace ArrayLang.Code

open Text

/-! ## Style sequences -/

/-- The byte with which escape sequences start. -/
def escapeByte : UInt8 := 27

/-- The bytes of which the parameters of an escape sequence consist. -/
def isParameter (b : UInt8) : Bool := 0x30 ≤ b && b ≤ 0x3f

/-- The bytes are a style sequence. -/
def IsSequence (bytes : List UInt8) : Prop :=
  ∃ params, (∀ b ∈ params, isParameter b = true) ∧ bytes = escapeByte :: 91 :: (params ++ [109])

/-- A text in a style is the text between two style sequences. -/
def Wraps (styled : Style → List Char → List Char) : Prop :=
  ∀ style text, ∃ start reset,
    styled style text = start ++ text ++ reset ∧
      IsSequence (bytesOfText (String.ofList start)) ∧
      IsSequence (bytesOfText (String.ofList reset))

/-- The length of the style sequence at the front of the bytes, if there is one. -/
def sequenceLength? : List UInt8 → Option Nat
  | first :: second :: rest =>
    let count := (rest.takeWhile isParameter).length
    if first = escapeByte ∧ second = 91 ∧ rest[count]? = some 109 then some (count + 3) else none
  | _ => none

/-- Delete the style sequences.  The first argument counts the bytes of the current sequence that
are still to be passed over. -/
def uncolouredFrom : Nat → List UInt8 → List UInt8
  | _, [] => []
  | skip + 1, _ :: rest => uncolouredFrom skip rest
  | 0, b :: rest =>
    match sequenceLength? (b :: rest) with
    | some length => uncolouredFrom (length - 1) rest
    | none => b :: uncolouredFrom 0 rest

/-- Delete the style sequences. -/
def uncoloured (bytes : List UInt8) : List UInt8 := uncolouredFrom 0 bytes

theorem sequenceLength?_of_ne {b : UInt8} (h : b ≠ escapeByte) (rest : List UInt8) :
    sequenceLength? (b :: rest) = none := by
  cases rest with
  | nil => rfl
  | cons second rest => exact if_neg fun hand => h hand.1

theorem sequenceLength?_sequence {params : List UInt8}
    (hparams : ∀ b ∈ params, isParameter b = true) (rest : List UInt8) :
    sequenceLength? (escapeByte :: 91 :: (params ++ 109 :: rest)) = some (params.length + 3) := by
  have htake : (params ++ 109 :: rest).takeWhile isParameter = params := by
    rw [List.takeWhile_append_of_pos hparams, List.takeWhile_cons_of_neg (by decide),
      List.append_nil]
  have hlast : (params ++ 109 :: rest)[params.length]? = some 109 := by simp
  rw [sequenceLength?]
  simp only [htake, hlast]
  rfl

theorem uncolouredFrom_append (skipped rest : List UInt8) :
    uncolouredFrom skipped.length (skipped ++ rest) = uncoloured rest := by
  induction skipped with
  | nil => rfl
  | cons b skipped ih => exact ih

/-- Bytes without an escape byte stay as they are. -/
theorem uncoloured_append {bytes : List UInt8} (h : escapeByte ∉ bytes) (rest : List UInt8) :
    uncoloured (bytes ++ rest) = bytes ++ uncoloured rest := by
  induction bytes with
  | nil => rfl
  | cons b bytes ih =>
      obtain ⟨hb, hbytes⟩ := List.ne_and_not_mem_of_not_mem_cons h
      rw [List.cons_append, uncoloured, uncolouredFrom, sequenceLength?_of_ne (Ne.symm hb)]
      exact congrArg (b :: ·) (ih hbytes)

/-- A sequence is deleted. -/
theorem IsSequence.uncoloured_append {bytes : List UInt8} (h : IsSequence bytes)
    (rest : List UInt8) : uncoloured (bytes ++ rest) = uncoloured rest := by
  obtain ⟨params, hparams, rfl⟩ := h
  have hskip := uncolouredFrom_append (91 :: (params ++ [109])) rest
  simp only [List.cons_append, List.append_assoc, List.nil_append]
  rw [uncoloured, uncolouredFrom, sequenceLength?_sequence hparams]
  simpa using hskip

theorem IsSequence.escapeByte_mem {bytes : List UInt8} (h : IsSequence bytes) :
    escapeByte ∈ bytes := by
  obtain ⟨params, -, rfl⟩ := h
  exact List.mem_cons_self

/-! ## Lines -/

theorem escapeByte_mem_iff {chars : List Char} :
    escapeByte ∈ bytesOfText (String.ofList chars) ↔ '\x1b' ∈ chars := by
  rw [bytesOfText_ofList, List.mem_flatMap]
  constructor
  · rintro ⟨c, hc, hmem⟩
    have hcode : c.toNat = 27 := (mem_utf8EncodeChar_iff (by decide)).mp hmem
    have heq : c = '\x1b' := Char.toNat_inj.mp hcode
    exact heq ▸ hc
  · intro hmem
    exact ⟨'\x1b', hmem, (mem_utf8EncodeChar_iff (by decide)).mpr rfl⟩

section

variable {styled : Style → List Char → List Char}

/-- Only the text of a styled text is left. -/
theorem Wraps.uncoloured_append (hstyled : Wraps styled) (style : Style) {text : List Char}
    (h : '\x1b' ∉ text) (rest : List UInt8) :
    uncoloured (bytesOfText (String.ofList (styled style text)) ++ rest) =
      bytesOfText (String.ofList text) ++ uncoloured rest := by
  obtain ⟨start, reset, hparts, hstart, hreset⟩ := hstyled style text
  simp only [hparts, bytesOfText_ofList_append, List.append_assoc]
  rw [hstart.uncoloured_append, Code.uncoloured_append (mt escapeByte_mem_iff.mp h),
    hreset.uncoloured_append]

/-- The line is left of a line in colour. -/
theorem uncoloured_highlight (hstyled : Wraps styled) {line : List Char} (h : '\x1b' ∉ line)
    (rest : List UInt8) :
    uncoloured (bytesOfText (String.ofList (highlight line styled)) ++ rest) =
      bytesOfText (String.ofList line) ++ uncoloured rest := by
  let indent := line.takeWhile (· = ' ')
  let text := line.dropWhile (· = ' ')
  have hline : indent ++ text = line := List.takeWhile_append_dropWhile
  have hplain : uncoloured (bytesOfText (String.ofList line) ++ rest) =
      bytesOfText (String.ofList line) ++ uncoloured rest :=
    uncoloured_append (mt escapeByte_mem_iff.mp h) rest
  by_cases hempty : text.isEmpty = true
  · have hsame : highlight line styled = line := if_pos hempty
    rwa [hsame]
  · cases hstyle : styleOf text with
    | none =>
        have hsame : highlight line styled = line := by
          refine (if_neg hempty).trans ?_
          rw [hstyle]
        rwa [hsame]
    | some style =>
        have hcoloured : highlight line styled = indent ++ styled style text := by
          refine (if_neg hempty).trans ?_
          rw [hstyle]
        rw [← hline, List.mem_append, not_or] at h
        rw [hcoloured, bytesOfText_ofList_append, List.append_assoc,
          uncoloured_append (mt escapeByte_mem_iff.mp h.1), hstyled.uncoloured_append style h.2,
          ← List.append_assoc, ← bytesOfText_ofList_append, hline]

/-! ## Listings -/

theorem bytesOfText_newline (a b : List Char) :
    bytesOfText (String.ofList (a ++ '\n' :: b)) =
      bytesOfText (String.ofList a) ++ 10 :: bytesOfText (String.ofList b) := by
  have hbreak : bytesOfText (String.ofList ['\n']) = [10] := by decide
  rw [← List.singleton_append, bytesOfText_ofList_append, bytesOfText_ofList_append, hbreak,
    List.singleton_append]

theorem highlightLines_newline (line rest : List Char) :
    highlightLines styled line ('\n' :: rest) =
      highlight line.reverse styled ++ '\n' :: highlightLines styled [] rest := rfl

theorem highlightLines_cons {c : Char} (hc : c ≠ '\n') (line rest : List Char) :
    highlightLines styled line (c :: rest) = highlightLines styled (c :: line) rest := by
  rw [highlightLines]
  exact hc

/-- The text is left when all lines are in colour; `line` is the part of the current line that was
read. -/
theorem uncoloured_highlightLines (hstyled : Wraps styled) {line text : List Char}
    (hline : '\x1b' ∉ line) (htext : '\x1b' ∉ text) :
    uncoloured (bytesOfText (String.ofList (highlightLines styled line text))) =
      bytesOfText (String.ofList (line.reverse ++ text)) := by
  induction text generalizing line with
  | nil =>
      have hleft := uncoloured_highlight hstyled (mt List.mem_reverse.mp hline) []
      rw [List.append_nil] at hleft
      rw [highlightLines, hleft, List.append_nil]
      exact List.append_nil _
  | cons c rest ih =>
      obtain ⟨hc, hrest⟩ := List.ne_and_not_mem_of_not_mem_cons htext
      by_cases hnewline : c = '\n'
      · subst hnewline
        have hbreak :
            uncoloured (10 :: bytesOfText (String.ofList (highlightLines styled [] rest))) =
              10 :: bytesOfText (String.ofList rest) := by
          rw [← List.singleton_append, uncoloured_append (by decide), ih (by simp) hrest]
          rfl
        rw [highlightLines_newline, bytesOfText_newline, bytesOfText_newline,
          uncoloured_highlight hstyled (mt List.mem_reverse.mp hline), hbreak]
      · rw [highlightLines_cons hnewline, ih _ hrest]
        · simp
        · rw [List.mem_cons, not_or]
          exact ⟨hc, hline⟩

/-- The first line of a listing shows a part of a module. -/
theorem escapeByte_mem_listing (hstyled : Wraps styled) (m : Module) :
    escapeByte ∈ bytesOfText (m.listing true styled) := by
  obtain ⟨rest, hrest⟩ : ∃ rest, m.text = "(module\n" ++ rest := by
    simp only [Module.text, String.append_assoc]
    exact ⟨_, rfl⟩
  have hfirst : highlightLines styled [] m.text.toList =
      styled .frame "(module".toList ++ '\n' :: highlightLines styled [] rest.toList := by
    rw [hrest, String.toList_append]
    rfl
  have hlisting : m.listing true styled = String.ofList (highlightLines styled [] m.text.toList) :=
    rfl
  obtain ⟨start, reset, hparts, hstart, -⟩ := hstyled .frame "(module".toList
  have hmem := escapeByte_mem_iff.mp hstart.escapeByte_mem
  rw [hlisting, hfirst, hparts, escapeByte_mem_iff]
  simp only [List.mem_append]
  exact Or.inl (Or.inl (Or.inl hmem))

theorem uncoloured_listing (hstyled : Wraps styled) {m : Module}
    (h : escapeByte ∉ bytesOfText (m.listing false styled)) :
    uncoloured (bytesOfText (m.listing true styled)) = bytesOfText (m.listing false styled) := by
  have hplain : m.listing false styled = m.text := rfl
  have hcolour : m.listing true styled = String.ofList (highlightLines styled [] m.text.toList) :=
    rfl
  rw [hplain, ← String.ofList_toList (s := m.text), escapeByte_mem_iff] at h
  have hleft := uncoloured_highlightLines hstyled List.not_mem_nil h
  rw [List.reverse_nil, List.nil_append, String.ofList_toList] at hleft
  rw [hplain, hcolour, hleft]

end

/-- If a styled text is the text between two style sequences, colour adds such sequences to every
listing, and nothing else to a listing without escape bytes.  Nor does it add anything else to a
line. -/
theorem colour_only_adds_sequences {styled : Style → List Char → List Char}
    (hstyled : Wraps styled) :
    (∀ m : Module, escapeByte ∈ bytesOfText (m.listing true styled) ∧
      (escapeByte ∉ bytesOfText (m.listing false styled) →
        uncoloured (bytesOfText (m.listing true styled)) =
          bytesOfText (m.listing false styled))) ∧
      ∀ line : String, escapeByte ∉ bytesOfText line →
        uncoloured (bytesOfText (String.ofList (highlight line.toList styled))) =
          bytesOfText line := by
  constructor
  · intro m
    exact ⟨escapeByte_mem_listing hstyled m, uncoloured_listing hstyled⟩
  · intro line hline
    rw [← String.ofList_toList (s := line), escapeByte_mem_iff] at hline
    have hleft := uncoloured_highlight hstyled hline []
    rw [List.append_nil, String.ofList_toList] at hleft
    exact hleft.trans (List.append_nil _)

theorem wraps_apply : Wraps Style.apply := by
  intro style text
  refine ⟨'\x1b' :: '[' :: style.code.toList ++ ['m'], ['\x1b', '[', 'm'], ?_, ?_, [], ?_⟩
  · simp [Style.apply]
  · refine ⟨bytesOfText style.code, ?_, ?_⟩
    · rw [← List.all_eq_true]
      cases style <;> decide
    · cases style <;> decide
  · exact ⟨by simp, by decide⟩

/-- A name with blanks and a line break, and a line that is indented. -/
theorem brokenName_only_adds_sequences :
    let m : Module := ⟨"main", [], {}, [], [], [{ name := "a  b\n call é ", body := [.trap] }]⟩
    uncoloured (bytesOfText (m.listing true)) = bytesOfText (m.listing false) ∧
      highlight "  call $a  ".toList ≠ "  call $a  ".toList ∧
      uncoloured (bytesOfText (String.ofList (highlight "  call $a  ".toList))) =
        bytesOfText "  call $a  " := by
  intro m
  obtain ⟨hlisting, hline⟩ := colour_only_adds_sequences wraps_apply
  refine ⟨(hlisting m).2 ?_, by decide, hline "  call $a  " (by decide)⟩
  decide

end ArrayLang.Code
