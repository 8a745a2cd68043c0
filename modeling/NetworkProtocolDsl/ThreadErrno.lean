/-
What the thread's `errno` lets one evaluation of `ReadIntFromAscii` do to a
later one.

`strtol` reports an out-of-range number in `errno` and nothing resets it, so
the evaluation of a positive number depends on whether any earlier evaluation
on the thread, of whichever interpreter, met a number `long` cannot hold.
-/
import Mathlib.Data.List.TakeWhile
import NetworkProtocolDsl.InputOutputOperation

namespace NetworkProtocolDsl

theorem le_foldl_digits (s : Octets) (acc : Nat) :
    acc ≤ s.foldl (fun acc b => 10 * acc + (b.toNat - 48)) acc := by
  induction s generalizing acc with
  | nil => exact Nat.le_refl acc
  | cons b s ih =>
      have := ih (10 * acc + (b.toNat - 48))
      simp only [List.foldl_cons]
      omega

/-- The first digits spell no more than all of them. -/
theorem digitsValue_takeWhile_le (p : UInt8 → Bool) (s : Octets) :
    digitsValue (s.takeWhile p) ≤ digitsValue s := by
  conv_rhs => rw [← List.takeWhile_append_dropWhile (p := p) (l := s)]
  rw [digitsValue, digitsValue, List.foldl_append]
  exact le_foldl_digits _ _

theorem isDigit_bounds {b : UInt8} (h : isDigit b = true) :
    48 ≤ b.toNat ∧ b.toNat ≤ 57 := by
  simpa [isDigit, UInt8.le_iff_toNat_le] using h

theorem isDigit_of_scans {b : UInt8} (h : ReadIntFromAscii.scans b = true) :
    isDigit b = true := by
  simp only [ReadIntFromAscii.scans, Bool.and_eq_true, decide_eq_true_eq,
    UInt8.le_iff_toNat_le, UInt8.lt_iff_toNat_lt] at h
  simp only [isDigit, Bool.and_eq_true, decide_eq_true_eq,
    UInt8.le_iff_toNat_le]
  exact ⟨h.1, Nat.le_of_lt h.2⟩

/-- A digit is no blank. -/
theorem dropWhile_blank_of_isDigit {b : UInt8} (h : isDigit b = true)
    (rest : Octets) :
    (b :: rest).dropWhile (fun b => decide (b = 32 ∨ (9 ≤ b ∧ b ≤ 13))) =
      b :: rest := by
  have hb := isDigit_bounds h
  have hblank : ¬ (b = 32 ∨ (9 ≤ b ∧ b ≤ 13)) := by
    rintro (rfl | ⟨_, hle⟩)
    · exact absurd hb (by decide)
    · rw [UInt8.le_iff_toNat_le] at hle
      have : (13 : UInt8).toNat = 13 := rfl
      omega
  simp only [List.dropWhile_cons, hblank, decide_false, Bool.false_eq_true,
    ↓reduceIte]

/-- A digit is no sign. -/
theorem ne_sign_of_isDigit {b : UInt8} (h : isDigit b = true) :
    b ≠ 43 ∧ b ≠ 45 := by
  have hb := isDigit_bounds h
  constructor
  · rintro rfl
    exact absurd hb (by decide)
  · rintro rfl
    exact absurd hb (by decide)

/-- Text made of digits stands for the number they spell. -/
theorem strtolValue_of_digits {s : Octets} (h : ∀ b ∈ s, isDigit b = true) :
    strtolValue s = digitsValue s := by
  cases s with
  | nil => rfl
  | cons b rest =>
      have hb := h b List.mem_cons_self
      have hdrop := dropWhile_blank_of_isDigit hb rest
      have htake : (b :: rest).takeWhile isDigit = b :: rest :=
        List.takeWhile_eq_self_iff.mpr h
      simp only [strtolValue, hdrop]
      split
      · rename_i heq
        exact absurd (List.cons.inj heq).1 (ne_sign_of_isDigit hb).1
      · rename_i heq
        exact absurd (List.cons.inj heq).1 (ne_sign_of_isDigit hb).2
      · simp [htake]

namespace ReadIntFromAscii

/-- The evaluation calls `strtol` on a number `long` cannot hold. -/
def Overflows (ctx : InputOutputOperationContext) : Prop :=
  ctx.ready = true ∧ ctx.buffer ≠ [48] ∧
    (LONG_MAX < strtolValue ctx.buffer ∨ strtolValue ctx.buffer < LONG_MIN)

instance (ctx : InputOutputOperationContext) : Decidable (Overflows ctx) :=
  inferInstanceAs (Decidable (_ ∧ _ ∧ _))

/-- The thread's `errno` after a history of evaluations. -/
def errnoAfter (errno : Errno) (history : List InputOutputOperationContext) :
    Errno :=
  history.foldl (fun errno ctx => (apply ctx errno).2) errno

/-- Evaluate on a fresh context that was offered `input` once. -/
def evaluateOn (input : Octets) (errno : Errno) : OperationResult :=
  (apply (handleRead {} input).2 errno).1

/-- An evaluation sets `errno` exactly if it overflows. -/
theorem apply_errno (ctx : InputOutputOperationContext) (errno : Errno) :
    (apply ctx errno).2 = if Overflows ctx then ERANGE else errno := by
  by_cases hready : ctx.ready = true
  · by_cases hzero : ctx.buffer = [48]
    · simp [apply, Overflows, hready, hzero]
    · by_cases hmax : LONG_MAX < strtolValue ctx.buffer
      · simp only [apply, hready, hzero, strtol, hmax, ↓reduceIte, Overflows,
          ne_eq, not_false_eq_true, true_or, and_self]
        split <;> rfl
      · by_cases hmin : strtolValue ctx.buffer < LONG_MIN
        · simp only [apply, hready, hzero, strtol, hmax, hmin, ↓reduceIte,
            Overflows, ne_eq, not_false_eq_true, or_true, and_self]
          split <;> rfl
        · simp only [apply, hready, hzero, strtol, hmax, hmin, ↓reduceIte,
            Overflows, or_self, and_false]
          split
          · rfl
          · split <;> rfl
  · cases heof : ctx.eof <;> simp [apply, Overflows, hready, heof]

theorem errnoAfter_eq_ERANGE_iff (errno : Errno)
    (history : List InputOutputOperationContext) :
    errnoAfter errno history = ERANGE ↔
      errno = ERANGE ∨ ∃ ctx ∈ history, Overflows ctx := by
  induction history generalizing errno with
  | nil => simp [errnoAfter]
  | cons ctx history ih =>
      have hstep : errnoAfter errno (ctx :: history) =
          errnoAfter (apply ctx errno).2 history := rfl
      rw [hstep, ih, apply_errno]
      by_cases hover : Overflows ctx
      · simp [hover]
      · simp [hover]

/-- The scan of a digit string stops at its first `9` or at its delimiter. -/
theorem handleRead_digits {s : Octets} {delimiter : UInt8}
    (hdelimiter : isDigit delimiter = false) (rest : Octets)
    (ctx : InputOutputOperationContext) :
    handleRead ctx (s ++ delimiter :: rest) =
      ((s.takeWhile scans).length,
        { ctx with buffer := s.takeWhile scans, ready := true }) := by
  have hscans : scans delimiter = false := by
    cases h : scans delimiter with
    | false => rfl
    | true => rw [isDigit_of_scans h] at hdelimiter; contradiction
  have htake : (s ++ delimiter :: rest).takeWhile scans =
      s.takeWhile scans := by
    induction s with
    | nil => simp [hscans]
    | cons b s ih => cases hb : scans b <;> simp [hb, ih]
  have hstarts : s.takeWhile scans <+: s ++ delimiter :: rest :=
    (List.takeWhile_prefix scans).trans (List.prefix_append _ _)
  have hlt : (s.takeWhile scans).length < (s ++ delimiter :: rest).length := by
    have := (List.takeWhile_prefix (l := s) scans).length_le
    simp only [List.length_append, List.length_cons]
    omega
  simp only [handleRead, htake, hlt, ↓reduceIte,
    ← List.prefix_iff_eq_take.mp hstarts]

/-- A number that `strtol` converts to zero is decided without `errno`. -/
theorem apply_zero {s : Octets} (hdigits : ∀ b ∈ s, isDigit b = true)
    (hzero : digitsValue s = 0) (ctx : InputOutputOperationContext)
    (errno errno' : Errno) :
    (apply { ctx with buffer := s, ready := true } errno).1 =
      (apply { ctx with buffer := s, ready := true } errno').1 := by
  have hvalue : strtolValue s = 0 := by
    rw [strtolValue_of_digits hdigits, hzero]
    rfl
  by_cases hs : s = [48]
  · simp [apply, hs]
  · simp [apply, hs, strtol, hvalue, LONG_MAX, LONG_MIN]

/-- A positive number in range is read unless `errno` says otherwise. -/
theorem apply_positive {s : Octets} (hdigits : ∀ b ∈ s, isDigit b = true)
    (hpos : digitsValue s ≠ 0) (hmax : digitsValue s ≤ 2147483647)
    (ctx : InputOutputOperationContext) (errno : Errno) :
    (apply { ctx with buffer := s, ready := true } errno).1 =
      if errno = ERANGE then .value (.runtimeError .protocolMismatchError)
      else .value (.int32 (Int32.ofInt (digitsValue s))) := by
  have hvalue := strtolValue_of_digits hdigits
  have hs : s ≠ [48] := by
    rintro rfl
    exact hpos rfl
  have hlong : strtol s errno = ((digitsValue s : Int), errno) := by
    have hnotmax : ¬ LONG_MAX < (digitsValue s : Int) := by
      unfold LONG_MAX
      omega
    have hnotmin : ¬ (digitsValue s : Int) < LONG_MIN := by
      unfold LONG_MIN
      omega
    simp only [strtol, hvalue, hnotmax, hnotmin, ↓reduceIte]
  have hne : ¬ (digitsValue s : Int) = 0 := by omega
  have hnotmax : ¬ INT_MAX < (digitsValue s : Int) := by
    unfold INT_MAX
    omega
  have hnotmin : ¬ (digitsValue s : Int) < INT_MIN := by
    unfold INT_MIN
    omega
  simp only [apply, hs, hlong, hne, hnotmax, hnotmin, ↓reduceIte, or_self,
    or_false]
  by_cases herr : errno = ERANGE <;> simp only [herr, ↓reduceIte]

/-- Two histories of the thread give a digit string in range the same result
exactly if what is scanned of it spells zero, or both or neither of them hold
a number `long` cannot hold. -/
theorem evaluateOn_history_independent_iff (errno : Errno)
    (history history' : List InputOutputOperationContext)
    (s : Octets) (delimiter : UInt8) (rest : Octets)
    (hdigits : ∀ b ∈ s, isDigit b = true)
    (hdelimiter : isDigit delimiter = false)
    (hrange : digitsValue s ≤ 2147483647) :
    evaluateOn (s ++ delimiter :: rest) (errnoAfter errno history) =
        evaluateOn (s ++ delimiter :: rest) (errnoAfter errno history') ↔
      digitsValue (s.takeWhile scans) = 0 ∨
        ((errno = ERANGE ∨ ∃ ctx ∈ history, Overflows ctx) ↔
          (errno = ERANGE ∨ ∃ ctx ∈ history', Overflows ctx)) := by
  rw [← errnoAfter_eq_ERANGE_iff, ← errnoAfter_eq_ERANGE_iff]
  simp only [evaluateOn, handleRead_digits hdelimiter]
  have hscanned : ∀ b ∈ s.takeWhile scans, isDigit b = true := fun b hb =>
    hdigits b (List.takeWhile_subset scans hb)
  have hle := digitsValue_takeWhile_le scans s
  by_cases hzero : digitsValue (s.takeWhile scans) = 0
  · have heq := apply_zero hscanned hzero {} (errnoAfter errno history)
      (errnoAfter errno history')
    simp only [hzero, true_or, iff_true]
    exact heq
  · have heval := apply_positive hscanned hzero (by omega) {}
    rw [heval, heval]
    by_cases h : errnoAfter errno history = ERANGE <;>
      by_cases h' : errnoAfter errno history' = ERANGE <;>
      simp [h, h', hzero]

/-- A 20-digit number read earlier on the thread. -/
def oversizedHistory : List InputOutputOperationContext :=
  [{ buffer := List.replicate 20 56, ready := true }]

/-- The number 7 read earlier. -/
def smallHistory : List InputOutputOperationContext :=
  [{ buffer := [55], ready := true }]

theorem fortyTwo_digits : ∀ b ∈ ([52, 50] : Octets), isDigit b = true := by
  intro b hb
  rcases List.mem_pair.mp hb with rfl | rfl <;> rfl

/-- `42` on a fresh thread, after the number 7 and after the oversized one. -/
theorem evaluateOn_history_independent_iff_small :
    (evaluateOn [52, 50, 32] (errnoAfter 0 []) =
        evaluateOn [52, 50, 32] (errnoAfter 0 smallHistory) ↔
      digitsValue ([52, 50].takeWhile scans) = 0 ∨
        (((0 : Errno) = ERANGE ∨ ∃ ctx ∈ [], Overflows ctx) ↔
          ((0 : Errno) = ERANGE ∨ ∃ ctx ∈ smallHistory, Overflows ctx))) ∧
      (evaluateOn [52, 50, 32] (errnoAfter 0 smallHistory) =
          evaluateOn [52, 50, 32] (errnoAfter 0 oversizedHistory) ↔
        digitsValue ([52, 50].takeWhile scans) = 0 ∨
          (((0 : Errno) = ERANGE ∨ ∃ ctx ∈ smallHistory, Overflows ctx) ↔
            ((0 : Errno) = ERANGE ∨
              ∃ ctx ∈ oversizedHistory, Overflows ctx))) :=
  ⟨evaluateOn_history_independent_iff 0 [] smallHistory [52, 50] 32 []
      fortyTwo_digits (by decide) (by decide),
    evaluateOn_history_independent_iff 0 smallHistory oversizedHistory
      [52, 50] 32 [] fortyTwo_digits (by decide) (by decide)⟩

/-- After the oversized number `42` fails to convert. -/
theorem evaluateOn_history_dependent :
    ¬ ∀ (errno : Errno)
      (history history' : List InputOutputOperationContext)
      (s : Octets) (delimiter : UInt8) (rest : Octets),
      (∀ b ∈ s, isDigit b = true) → isDigit delimiter = false →
      digitsValue s ≤ 2147483647 →
      evaluateOn (s ++ delimiter :: rest) (errnoAfter errno history) =
        evaluateOn (s ++ delimiter :: rest)
          (errnoAfter errno history') := by
  intro h
  have heq := h 0 [] oversizedHistory [52, 50] 32 [] fortyTwo_digits (by decide)
    (by decide)
  have hfresh : evaluateOn ([52, 50] ++ 32 :: []) (errnoAfter 0 []) =
      .value (.int32 42) := rfl
  have hafter : evaluateOn ([52, 50] ++ 32 :: [])
      (errnoAfter 0 oversizedHistory) =
      .value (.runtimeError .protocolMismatchError) := rfl
  rw [hfresh, hafter] at heq
  injection heq with heq
  injection heq

end ReadIntFromAscii

end NetworkProtocolDsl
