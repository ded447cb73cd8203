import PrecisionGc.Library.Words
import PrecisionGc.Model.Init

/-!
# The base of the stack

Each round of the loop in `gc_init` passes one word of the line, so the number that is read is the
one at the start of the 28th word. In the kernel's format this is the 28th field, startstack, as
long as the command name in the second field contains no white space.
-/

namespace PrecisionGc
open Words Except

variable {statBuf : List UInt8} {p : UInt8 → Bool} {fuel i n : Nat} {w : List UInt8}
  {ws : List (List UInt8)}

/-! ## The loops -/

theorem statByte_eq (h : i < statBuf.length) : statByte statBuf i = .ok statBuf[i] := by
  simp [statByte, h]

/-- The loop drops what satisfies `p`, and one byte more. -/
theorem skipPast_ok (statBuf : List UInt8) (p : UInt8 → Bool) (i : Nat)
    (hfuel : statBuf.length - i < fuel) :
    ∃ i', skipPast statBuf p fuel i = .ok i' ∧
      statBuf.drop i' = ((statBuf.drop i).dropWhile p).tail := by
  induction fuel generalizing i with
  | zero => omega
  | succ fuel ih =>
    by_cases hi : i < statBuf.length
    · rw [skipPast, if_pos hi, statByte_eq hi, Except.ok_bind]
      cases hp : p statBuf[i] with
      | true =>
        obtain ⟨i', h, hdrop⟩ := ih (i + 1) (by omega)
        refine ⟨i', h, ?_⟩
        rw [hdrop, List.drop_eq_getElem_cons hi, List.dropWhile_cons_of_pos hp]
      | false =>
        refine ⟨i + 1, rfl, ?_⟩
        rw [List.drop_eq_getElem_cons hi, List.dropWhile_cons_of_neg (by simp [hp]), List.tail_cons]
    · rw [skipPast, if_neg hi, List.drop_of_length_le (not_lt.mp hi)]
      exact ⟨i, rfl, List.drop_of_length_le (not_lt.mp hi)⟩

/-- The loop stops behind what satisfies `p`. -/
theorem scanWhile_ok (statBuf : List UInt8) (p : UInt8 → Bool) (i : Nat)
    (hfuel : statBuf.length - i < fuel) :
    scanWhile statBuf p fuel i = .ok (i + ((statBuf.drop i).takeWhile p).length) := by
  induction fuel generalizing i with
  | zero => omega
  | succ fuel ih =>
    by_cases hi : i < statBuf.length
    · rw [scanWhile, if_pos hi, statByte_eq hi, Except.ok_bind, List.drop_eq_getElem_cons hi]
      cases hp : p statBuf[i] with
      | true =>
        rw [List.takeWhile_cons_of_pos hp, List.length_cons, if_pos rfl, ih (i + 1) (by omega)]
        exact congrArg _ (by omega)
      | false =>
        rw [List.takeWhile_cons_of_neg (by simp [hp])]
        rfl
    · rw [scanWhile, if_neg hi, List.drop_of_length_le (not_lt.mp hi)]
      rfl

/-- A round passes a word. -/
theorem skipField_ok (i : Nat) (hfuel : statBuf.length < fuel) :
    ∃ i', skipField statBuf fuel i = .ok i' ∧
      statBuf.drop i' = afterWord isspace (statBuf.drop i) := by
  obtain ⟨i₁, h₁, hdrop₁⟩ := skipPast_ok statBuf isspace i
    (show statBuf.length - i < fuel by omega)
  obtain ⟨i₂, h₂, hdrop₂⟩ := skipPast_ok statBuf (!isspace ·) i₁
    (show statBuf.length - i₁ < fuel by omega)
  refine ⟨i₂, by rw [skipField, h₁, Except.ok_bind, h₂], ?_⟩
  rw [hdrop₂, hdrop₁, afterWord_eq]

/-- `n` rounds pass `n` words. -/
theorem skipFields_ok (n : Nat) (hfuel : statBuf.length < fuel) :
    ∃ i, (List.range n).foldlM (fun i _ => skipField statBuf fuel i) 0 = .ok i ∧
      words isspace (statBuf.drop i) = (words isspace statBuf).drop n := by
  induction n with
  | zero => exact ⟨0, rfl, rfl⟩
  | succ n ih =>
    obtain ⟨i, h, hwords⟩ := ih
    obtain ⟨i', h', hdrop⟩ := skipField_ok i hfuel
    refine ⟨i', ?_, ?_⟩
    · rw [List.range_succ, List.foldlM_append, h, Except.ok_bind, List.foldlM_cons, h']
      rfl
    · rw [hdrop, words_afterWord, hwords, List.tail_drop]

/-! ## The number -/

theorem not_isspace_of_isdigit {c : UInt8} (h : isdigit c = true) : isspace c = false := by
  simp only [isdigit, Bool.and_eq_true, decide_eq_true_eq, UInt8.le_iff_toNat_le] at h
  have h48 : (48 : UInt8).toNat = 48 := rfl
  have h57 : (57 : UInt8).toNat = 57 := rfl
  have h13 : (13 : UInt8).toNat = 13 := rfl
  have h32 : (32 : UInt8).toNat = 32 := rfl
  simp only [isspace, Bool.or_eq_false_iff, beq_eq_false_iff_ne, ne_eq, Bool.and_eq_false_iff,
    decide_eq_false_iff_not, UInt8.le_iff_toNat_le, ← UInt8.toNat_inj]
  omega

/-- The value that `strtoull` gives to the digits in front of `w`. -/
def leadingNumber (w : List UInt8) : Nat := min (decimal (w.takeWhile isdigit)) (2 ^ 64 - 1)

theorem strtoull_digits {ds : List UInt8} (h : ∀ c ∈ ds, isdigit c = true) :
    strtoull ds = min (decimal ds) (2 ^ 64 - 1) := by
  have hspace : ds.dropWhile isspace = ds := by
    cases ds with
    | nil => rfl
    | cons c ds =>
      exact List.dropWhile_cons_of_neg (by simp [not_isspace_of_isdigit (h c (by simp))])
  have hsign : (ds.head? == some 43) = false ∧ (ds.head? == some 45) = false := by
    cases ds with
    | nil => exact ⟨rfl, rfl⟩
    | cons c ds =>
      have hc := h c (by simp)
      constructor
      · refine beq_eq_false_iff_ne.mpr fun e => ?_
        obtain rfl := Option.some.inj e
        cases hc
      · refine beq_eq_false_iff_ne.mpr fun e => ?_
        obtain rfl := Option.some.inj e
        cases hc
  simp only [strtoull, hspace, hsign.1, hsign.2, Bool.or_self, Bool.false_eq_true, if_false,
    List.takeWhile_eq_self_iff.mpr h]
  split <;> omega

/-- White space does not continue a number. -/
theorem takeWhile_isdigit_append {t : List UInt8} (h : ∀ c u, t = c :: u → isspace c = true) :
    (w ++ t).takeWhile isdigit = w.takeWhile isdigit := by
  have hnone : t.takeWhile isdigit = [] := by
    cases t with
    | nil => rfl
    | cons c u =>
      refine List.takeWhile_cons_of_neg fun hc => ?_
      have hc' := h c u rfl
      rw [not_isspace_of_isdigit hc] at hc'
      cases hc'
  rw [List.takeWhile_append, hnone, List.append_nil]
  split
  next hlen => exact (List.takeWhile_prefix isdigit).eq_of_length hlen |>.symm
  next => rfl

/-- A number that does not end the text ends where a NUL is put behind it. -/
theorem takeWhile_set_drop {ds t : List UInt8} (h : statBuf.drop i = ds ++ t) (ht : t ≠ [])
    (hds : ∀ c ∈ ds, isdigit c = true) : i + ds.length < statBuf.length ∧
      ((statBuf.set (i + ds.length) 0).drop i).takeWhile (· != 0) = ds := by
  obtain ⟨x, r, rfl⟩ := List.exists_cons_of_ne_nil ht
  constructor
  · have := congrArg List.length h
    simp only [List.length_drop, List.length_append, List.length_cons] at this
    omega
  · rw [← List.set_drop, h, List.set_append_right _ _ le_rfl, Nat.sub_self, List.set_cons_zero,
      List.takeWhile_append_of_pos, List.takeWhile_cons_of_neg (by simp), List.append_nil]
    intro c hc
    refine bne_iff_ne.mpr fun e => ?_
    have := hds c hc
    rw [e] at this
    cases this

/-- The value read is the number at the start of the 28th word, if that is not the last. -/
theorem parseStackBase_ok (hfuel : statBuf.length < fuel)
    (hwords : (words isspace statBuf).drop statSkip = w :: ws) (hws : ws ≠ []) :
    parseStackBase statBuf fuel = .ok (leadingNumber w) := by
  obtain ⟨i, h, hi⟩ := skipFields_ok statSkip hfuel
  rw [hwords] at hi
  obtain ⟨t, ht, -, hne, hsep⟩ := dropWhile_eq_of_words hi
  -- the text from the 28th word on
  have hspace := scanWhile_ok statBuf isspace i
    (show statBuf.length - i < fuel by omega)
  generalize hi₁ : i + ((statBuf.drop i).takeWhile isspace).length = i₁ at hspace
  have hdrop : statBuf.drop i₁ = w ++ t := by
    rw [← hi₁, ← List.drop_drop, drop_length_takeWhile, ht]
  have hdigits := scanWhile_ok statBuf isdigit i₁
    (show statBuf.length - i₁ < fuel by omega)
  rw [hdrop, takeWhile_isdigit_append hsep] at hdigits
  -- its digits, and what stands behind them
  have hsplit : statBuf.drop i₁ = w.takeWhile isdigit ++ (w.dropWhile isdigit ++ t) := by
    rw [hdrop, ← List.append_assoc, List.takeWhile_append_dropWhile]
  have hnum : ∀ c ∈ w.takeWhile isdigit, isdigit c = true := fun c hc => List.mem_takeWhile_imp hc
  obtain ⟨hlen, hstring⟩ := takeWhile_set_drop hsplit
    (fun hnil => hne hws (List.append_eq_nil_iff.mp hnil).2) hnum
  rw [parseStackBase, h, Except.ok_bind, hspace, Except.ok_bind, hdigits, Except.ok_bind,
    if_neg (not_le.mpr hlen), hstring, strtoull_digits hnum]
  rfl

theorem statByte_avoids (h : i < statBuf.length) : Avoids .wild (statByte statBuf i) := by
  rw [statByte_eq h]
  exact .ok _

theorem skipPast_avoids : Avoids .wild (skipPast statBuf p fuel i) := by
  induction fuel generalizing i with
  | zero => exact .error (by decide)
  | succ fuel ih =>
    unfold skipPast
    split
    next hi =>
      refine (statByte_avoids hi).bind fun c => ?_
      split
      · exact ih
      · exact .ok _
    next => exact .ok _

theorem scanWhile_avoids : Avoids .wild (scanWhile statBuf p fuel i) := by
  induction fuel generalizing i with
  | zero => exact .error (by decide)
  | succ fuel ih =>
    unfold scanWhile
    split
    next hi =>
      refine (statByte_avoids hi).bind fun c => ?_
      split
      · exact ih
      · exact .ok _
    next => exact .ok _

/-- No byte at or past `file_length` is looked at, whatever the file contains. -/
theorem parseStackBase_avoids : Avoids .wild (parseStackBase statBuf fuel) := by
  refine Avoids.bind (Avoids.foldlM (fun _ _ => skipPast_avoids.bind fun _ => skipPast_avoids) _ _)
    fun _ => scanWhile_avoids.bind fun _ => scanWhile_avoids.bind fun _ => ?_
  split
  · exact .error (by decide)
  · exact .ok _

/-! ## The line of the kernel -/

/-- A line of `/proc/self/stat`: the process id, the command name, which is any text, and the other
fields, of which startstack is the 28th of the line. -/
structure StatLine where
  pid : List UInt8
  comm : List UInt8
  fields : List (List UInt8)
  pidWord : pid ≠ [] ∧ ∀ c ∈ pid, isspace c = false
  fieldWords : ∀ f ∈ fields, f ≠ [] ∧ ∀ c ∈ f, isspace c = false
  enough : 27 ≤ fields.length
  /-- startstack is an unsigned long in decimal -/
  digits : ∀ c ∈ fields.getD 25 [], isdigit c = true
  bounded : decimal (fields.getD 25 []) < 2 ^ 64

namespace StatLine

variable (l : StatLine)

/-- `(comm)` -/
def parenthesised : List UInt8 := 40 :: (l.comm ++ [41])

/-- Single spaces between the fields, and a newline at the end. -/
def text : List UInt8 :=
  l.pid ++ 32 :: (l.parenthesised ++ 32 :: ((l.fields.intersperse [32]).flatten ++ [10]))

def startstack : Nat := decimal (l.fields.getD 25 [])

/-- The 28th word of the line. -/
def word28 : List UInt8 := (words isspace l.text).getD 27 []

theorem words_text :
    words isspace l.text = l.pid :: (words isspace l.parenthesised ++ l.fields) := by
  rw [text, words_append_cons (by decide), words_append_cons (by decide),
    words_word l.pidWord.2 l.pidWord.1, words_intersperse (by decide) l.fieldWords (by decide)]
  rfl

/-- The command name has a word, if only one parenthesis. -/
theorem words_parenthesised_ne : words isspace l.parenthesised ≠ [] := by
  rw [parenthesised, words_of_head (by decide)]
  exact List.cons_ne_nil _ _

/-- The line is read as the number at the start of its 28th word. -/
theorem parse_eq (hfits : l.text.length ≤ statBufSize) (hfuel : statBufSize < fuel) :
    parseStackBase (l.text.take statBufSize) fuel = .ok (leadingNumber l.word28) := by
  rw [List.take_of_length_le hfits]
  have hlen : 29 ≤ (words isspace l.text).length := by
    have := List.length_pos_iff.mpr l.words_parenthesised_ne
    have := l.enough
    simp only [words_text, List.length_cons, List.length_append]
    omega
  have hdrop : (words isspace l.text).drop statSkip =
      l.word28 :: (words isspace l.text).drop 28 := by
    rw [statSkip, List.drop_eq_getElem_cons (by omega), word28, List.getD_eq_getElem _ _ (by omega)]
  refine parseStackBase_ok (by omega) hdrop fun hnil => ?_
  have := congrArg List.length hnil
  simp only [List.length_drop, List.length_nil] at this
  omega

/-- The command name displaces the fields behind it by as many places as it has words too many. -/
theorem word28_displaced {k : Nat} (h : (words isspace l.parenthesised).length = k + 1)
    (hk : k ≤ 25) : l.word28 = l.fields.getD (25 - k) [] := by
  rw [word28, words_text, List.getD_cons_succ, List.getD_append_right _ _ _ _ (by omega), h]
  congr 1
  omega

/-- Without white space in the command name the words of the line are its fields. -/
theorem word28_eq (h : ∀ c ∈ l.comm, isspace c = false) : l.word28 = l.fields.getD 25 [] := by
  have hword : words isspace l.parenthesised = [l.parenthesised] := by
    refine words_word (fun c hc => ?_) (List.cons_ne_nil _ _)
    simp only [parenthesised, List.mem_cons, List.mem_append, List.not_mem_nil, or_false] at hc
    rcases hc with rfl | hc | rfl
    · rfl
    · exact h c hc
    · rfl
  exact l.word28_displaced (k := 0) (by rw [hword]; rfl) (by decide)

theorem leadingNumber_startstack : leadingNumber (l.fields.getD 25 []) = l.startstack := by
  have := l.bounded
  rw [leadingNumber, List.takeWhile_eq_self_iff.mpr l.digits, startstack]
  omega

end StatLine

/-- `gc_init` starts the collector with startstack as the base of the stack. -/
theorem gcInit_ok {l : StatLine} (hfits : l.text.length ≤ statBufSize)
    (hfuel : statBufSize < fuel) (hcomm : ∀ c ∈ l.comm, isspace c = false)
    (hlow : 0x100000 < l.startstack) (haligned : l.startstack % pointerSize = 0) (s : State) :
    gcInit fuel l.text s =
      .ok { s with stackBase := l.startstack, allocatorMutex := 1, gcInitialised := true } := by
  rw [gcInit, l.parse_eq hfits hfuel, l.word28_eq hcomm, l.leadingNumber_startstack, Except.ok_bind,
    if_neg (by omega)]
  rfl

/-- `gc_init` finds startstack exactly if the command name contains no white space, or if the field
that its words displace to the 28th place happens to hold the same number. -/
theorem parseStackBase_iff (l : StatLine) (hfits : l.text.length ≤ statBufSize)
    (hfuel : statBufSize < fuel) :
    parseStackBase (l.text.take statBufSize) fuel = .ok l.startstack ↔
      (∀ c ∈ l.comm, isspace c = false) ∨ leadingNumber l.word28 = l.startstack := by
  rw [l.parse_eq hfits hfuel, Except.ok.injEq]
  refine ⟨.inr, fun h => h.elim (fun hcomm => ?_) id⟩
  rw [l.word28_eq hcomm, l.leadingNumber_startstack]

/-- The decimal digits of `n`. -/
def numeral (n : Nat) : List UInt8 := (Nat.toDigits 10 n).map fun c => UInt8.ofNat c.toNat

/-- The line of a process whose name is `a b`. -/
def spacedName : StatLine where
  pid := numeral 4242
  comm := [97, 32, 98]
  fields := [83] :: [1, 4242, 4242, 34816, 4242, 4194304, 100, 0, 0, 0, 1, 0, 0, 0, 20, 0, 1, 0,
    5000, 2000000, 200, 18446744073709551615, 94000000000000, 94000000100000, 140730000000000, 0,
    0].map numeral
  pidWord := by decide +kernel
  fieldWords := by decide +kernel
  enough := by decide
  digits := by decide +kernel
  bounded := by decide +kernel

theorem parseStackBase_iff_spacedName :
    parseStackBase (spacedName.text.take statBufSize) 5000 = .ok spacedName.startstack ↔
      (∀ c ∈ spacedName.comm, isspace c = false) ∨
        leadingNumber spacedName.word28 = spacedName.startstack :=
  parseStackBase_iff spacedName (by decide +kernel) (by decide)

/-- The base of the stack is taken to be where the program's code ends. -/
theorem not_parseStackBase_spacedName :
    spacedName.text.length ≤ statBufSize ∧ spacedName.startstack = 140730000000000 ∧
      parseStackBase (spacedName.text.take statBufSize) 5000 = .ok 94000000100000 := by
  decide +kernel

end PrecisionGc
