/-
Reading back the decimal notation of an integer.

`strtol` undoes what the stream wrote, but the scanning loop that looks for the
end of the digits takes a nine for the end.
-/
import Mathlib.Data.Nat.Digits.Lemmas
import NetworkProtocolDsl.IntegerField

namespace NetworkProtocolDsl

/-- The byte of a decimal digit. -/
def digitByte (digit : Nat) : UInt8 := UInt8.ofNat (48 + digit)

theorem toNat_digitByte {digit : Nat} (h : digit < 10) :
    (digitByte digit).toNat = 48 + digit := by
  rw [digitByte, UInt8.toNat_ofNat']
  exact Nat.mod_eq_of_lt (by omega)

theorem digits_lt_ten {n digit : Nat} (h : digit ∈ Nat.digits 10 n) :
    digit < 10 :=
  Nat.digits_lt_base (by decide) h

theorem decimal_of_pos {n : Nat} (h : 0 < n) :
    decimal n = (Nat.digits 10 n).reverse.map digitByte := by
  rw [decimal, if_neg (by omega)]
  rfl

theorem digitsValue_append_singleton (s : Octets) (b : UInt8) :
    digitsValue (s ++ [b]) = 10 * digitsValue s + (b.toNat - 48) := by
  rw [digitsValue, List.foldl_append]
  rfl

theorem digitsValue_digitBytes {digits : List Nat}
    (h : ∀ digit ∈ digits, digit < 10) :
    digitsValue (digits.reverse.map digitByte) = Nat.ofDigits 10 digits := by
  induction digits with
  | nil => rfl
  | cons digit digits ih =>
      obtain ⟨hdigit, hdigits⟩ := List.forall_mem_cons.mp h
      rw [List.reverse_cons, List.map_append, List.map_singleton,
        digitsValue_append_singleton, ih hdigits, toNat_digitByte hdigit,
        Nat.ofDigits_cons]
      omega

theorem digitsValue_decimal (n : Nat) : digitsValue (decimal n) = n := by
  rcases Nat.eq_zero_or_pos n with rfl | hpos
  · rfl
  · rw [decimal_of_pos hpos, digitsValue_digitBytes fun _ => digits_lt_ten,
      Nat.ofDigits_digits]

theorem strtolValue_decimal (n : Nat) : strtolValue (decimal n) = n := by
  rw [strtolValue_of_digits (isDigit_of_decimal n), digitsValue_decimal]

theorem strtolValue_minus_decimal (n : Nat) :
    strtolValue (45 :: decimal n) = -n := by
  have hdigits : (decimal n).takeWhile isDigit = decimal n :=
    List.takeWhile_eq_self_iff.mpr (isDigit_of_decimal n)
  simp [strtolValue, hdigits, digitsValue_decimal]

theorem scans_digitByte {digit : Nat} (h : digit < 10) :
    ReadIntFromAscii.scans (digitByte digit) = true ↔ digit ≠ 9 := by
  have hbyte := toNat_digitByte h
  simp only [ReadIntFromAscii.scans, Bool.and_eq_true, decide_eq_true_eq,
    UInt8.le_iff_toNat_le, UInt8.lt_iff_toNat_lt, hbyte]
  change 48 ≤ 48 + digit ∧ 48 + digit < 57 ↔ digit ≠ 9
  omega

/-- The scan gets through the notation of the numbers without a nine. -/
theorem scans_decimal_iff (n : Nat) :
    (∀ b ∈ decimal n, ReadIntFromAscii.scans b = true) ↔
      9 ∉ Nat.digits 10 n := by
  rcases Nat.eq_zero_or_pos n with rfl | hpos
  · refine iff_of_true ?_ ?_
    · intro b hb
      rw [List.mem_singleton.mp hb]
      rfl
    · simp
  · rw [decimal_of_pos hpos]
    simp only [List.mem_map, List.mem_reverse, forall_exists_index, and_imp,
      forall_apply_eq_imp_iff₂]
    constructor
    · intro h hnine
      exact (scans_digitByte (by decide)).mp (h 9 hnine) rfl
    · intro hnine digit hdigit
      refine (scans_digitByte (digits_lt_ten hdigit)).mpr ?_
      rintro rfl
      exact hnine hdigit

theorem length_takeWhile_append {α : Type} {p : α → Bool} {x : α}
    (hx : p x = false) (xs rest : List α) :
    ((xs ++ x :: rest).takeWhile p).length = xs.length ↔
      ∀ y ∈ xs, p y = true := by
  induction xs with
  | nil => simp [hx]
  | cons y ys ih =>
      rw [List.forall_mem_cons, ← ih, List.cons_append]
      cases hy : p y with
      | true => simp [hy]
      | false => simp [hy]

namespace IntToAscii

theorem apply_nonneg {n : Int32} (h : 0 ≤ n.toInt) :
    apply (.int32 n) = .octets (decimal n.toInt.toNat) := by
  rw [apply, if_neg (by omega)]
  congr 2
  omega

/-- `strtol` makes the integer of its notation. -/
theorem strtolValue_eq {n : Int32} {text : Octets}
    (h : apply (.int32 n) = .octets text) : strtolValue text = n.toInt := by
  rw [apply] at h
  split_ifs at h with hnegative
  · obtain rfl := Value.octets.inj h
    rw [strtolValue_minus_decimal]
    omega
  · obtain rfl := Value.octets.inj h
    rw [strtolValue_decimal]
    omega

end IntToAscii

namespace ReadIntFromAscii

theorem scans_of_not_isDigit {b : UInt8} (h : isDigit b = false) :
    scans b = false := by
  rw [Bool.eq_false_iff]
  intro hscans
  rw [isDigit_of_scans hscans] at h
  contradiction

/-- The scan stops at a byte that is no digit. -/
theorem handleRead_append {b : UInt8} (hb : isDigit b = false)
    (text tail : Octets) : ∃ consumed, consumed ≤ text.length ∧
      (consumed = text.length ↔ ∀ c ∈ text, scans c = true) ∧
      handleRead {} (text ++ b :: tail) =
        (consumed, { buffer := text.take consumed, ready := true }) := by
  have hstop := scans_of_not_isDigit hb
  have hle := takeWhile_scans_le text [] hb tail
  simp only [List.append_assoc, List.cons_append, List.nil_append] at hle
  refine ⟨_, hle, length_takeWhile_append hstop text tail, ?_⟩
  have hlt : ((text ++ b :: tail).takeWhile scans).length <
      (text ++ b :: tail).length := by
    rw [List.length_append, List.length_cons]
    omega
  rw [handleRead, if_pos hlt, List.take_append_of_le_length hle]

/-- The notation of an integer is read as the integer. -/
theorem apply_intToAscii {n : Int32} {text : Octets}
    (htext : IntToAscii.apply (.int32 n) = .octets text) {errno : Errno}
    (herrno : n = 0 ∨ errno ≠ ERANGE) :
    apply { buffer := text, ready := true } errno =
      (.value (.int32 n), errno) := by
  have hmax : n.toInt ≤ INT_MAX := Int32.toInt_le n
  have hmin : INT_MIN ≤ n.toInt := Int32.le_toInt n
  have hvalue := IntToAscii.strtolValue_eq htext
  have hstrtol : strtol text errno = (n.toInt, errno) := by
    simp only [INT_MAX, INT_MIN] at hmax hmin
    rw [strtol, hvalue, if_neg (by simp only [LONG_MAX]; omega),
      if_neg (by simp only [LONG_MIN]; omega)]
  by_cases hzero : n = 0
  · subst hzero
    obtain rfl := Value.octets.inj htext
    rfl
  · have hne : n.toInt ≠ 0 := fun h => hzero (Int32.toInt_inj.mp h)
    have hbuffer : text ≠ [48] := by
      rintro rfl
      exact hne hvalue.symm
    have hrange : ¬ (errno = ERANGE ∨ INT_MAX < n.toInt ∨
        n.toInt < INT_MIN) := by
      rintro (h | h | h)
      · exact herrno.elim hzero fun hne => hne h
      · omega
      · omega
    simp only [apply, ↓reduceIte, hbuffer, hstrtol, hne, hrange,
      Int32.ofInt_toInt]

/-- Reading what is written for the integer consumes exactly that and yields
the integer. -/
def RoundTrips (n : Int32) (rest : Octets) : Prop :=
  ∃ text, IntToAscii.apply (.int32 n) = .octets text ∧ ∃ ctx errno,
    handleRead {} (text ++ rest) = (text.length, ctx) ∧
      apply ctx 0 = (.value (.int32 n), errno)

/-- A number is read back just when its notation has no nine. -/
theorem roundTrips_iff {n : Int32} (hn : 0 ≤ n.toInt) {b : UInt8}
    (hb : isDigit b = false) (tail : Octets) :
    RoundTrips n (b :: tail) ↔ 9 ∉ Nat.digits 10 n.toInt.toNat := by
  obtain ⟨consumed, _, hall, hread⟩ :=
    handleRead_append hb (decimal n.toInt.toNat) tail
  rw [scans_decimal_iff] at hall
  rw [← hall]
  constructor
  · rintro ⟨text, htext, ctx, errno, hconsumed, _⟩
    rw [IntToAscii.apply_nonneg hn] at htext
    obtain rfl := Value.octets.inj htext
    exact (Prod.mk.inj (hread.symm.trans hconsumed)).1
  · rintro rfl
    refine ⟨_, IntToAscii.apply_nonneg hn, _, 0, hread, ?_⟩
    rw [List.take_length]
    exact apply_intToAscii (IntToAscii.apply_nonneg hn) (Or.inr (by decide))

theorem roundTrips_iff_ten :
    RoundTrips 10 [13, 10] ↔ 9 ∉ Nat.digits 10 (10 : Int32).toInt.toNat :=
  roundTrips_iff (by decide) (by decide) [10]

/-- Of `9` nothing is consumed. -/
theorem nine_not_roundTrips : ¬ ∀ n : Int32, 0 ≤ n.toInt →
    ∀ b tail, isDigit b = false → RoundTrips n (b :: tail) := by
  intro h
  obtain ⟨text, htext, ctx, errno, hread, _⟩ :=
    h 9 (by decide) 13 [10] (by decide)
  rw [IntToAscii.apply_nonneg (by decide)] at htext
  obtain rfl := Value.octets.inj htext
  obtain ⟨consumed, _, hall, hread'⟩ := handleRead_append
    (show isDigit 13 = false by decide) (decimal (9 : Int32).toInt.toNat) [10]
  have hconsumed := (Prod.mk.inj (hread'.symm.trans hread)).1
  rw [scans_decimal_iff] at hall
  exact hall.mp hconsumed (by simp)

end ReadIntFromAscii

end NetworkProtocolDsl
