/-
Static pieces that contain a zero byte.

A read compares its piece with a function for C strings, which stops at a zero
byte that both sides share.  The lookahead compares all the bytes.  So a read
accepts whatever the lookahead selects, and more than its piece exactly if the
piece goes on behind a zero byte.
-/
import NetworkProtocolDsl.EvaluationRules
import NetworkProtocolDsl.TransitionLookahead

namespace NetworkProtocolDsl

/-- What a function for C strings sees of the bytes. -/
def cString (s : Octets) : Octets :=
  s.takeWhile (· ≠ 0)

theorem cString_cons_zero (s : Octets) : cString (0 :: s) = [] := by
  simp [cString]

theorem cString_cons_ne {b : UInt8} (hne : b ≠ 0) (s : Octets) :
    cString (b :: s) = b :: cString s := by
  simp [cString, hne]

/-- Texts of one length compare as equal exactly if they are equal as C
strings. -/
theorem strncmpEqual_iff {s t : Octets} (hlength : s.length = t.length) :
    strncmpEqual t.length s t = true ↔ cString s = cString t := by
  induction t generalizing s with
  | nil =>
      have hnil : s = [] := List.length_eq_zero_iff.mp hlength
      simp [hnil, strncmpEqual]
  | cons b t ih =>
      cases s with
      | nil => contradiction
      | cons a s =>
          have ih := ih (Nat.succ.inj hlength)
          rw [List.length_cons, strncmpEqual]
          by_cases hab : a = b
          · subst hab
            by_cases hzero : a = 0
            · simp [hzero, cString_cons_zero]
            · simp [hzero, cString_cons_ne, ih]
          · rw [if_neg hab]
            by_cases ha : a = 0
            · have hb : b ≠ 0 := fun hb => hab (ha.trans hb.symm)
              simp [ha, cString_cons_zero, cString_cons_ne hb]
            · by_cases hb : b = 0
              · simp [hb, cString_cons_zero, cString_cons_ne ha]
              · simp [cString_cons_ne ha, cString_cons_ne hb, hab]

/-- Texts of one length are equal as C strings only if they are equal, where a
zero byte can stand at the end only. -/
theorem eq_of_cString_eq {s contents : Octets}
    (hnul : 0 ∉ contents.dropLast) (hlength : s.length = contents.length)
    (h : cString s = cString contents) : s = contents := by
  induction contents generalizing s with
  | nil => exact List.length_eq_zero_iff.mp hlength
  | cons b contents ih =>
      cases s with
      | nil => contradiction
      | cons a s =>
          have hrest := Nat.succ.inj hlength
          cases contents with
          | nil =>
              have hnil : s = [] := List.length_eq_zero_iff.mp hrest
              rw [hnil] at h ⊢
              by_cases ha : a = 0
              · by_cases hb : b = 0
                · rw [ha, hb]
                · rw [ha, cString_cons_zero, cString_cons_ne hb] at h
                  contradiction
              · by_cases hb : b = 0
                · rw [hb, cString_cons_zero, cString_cons_ne ha] at h
                  contradiction
                · rw [cString_cons_ne ha, cString_cons_ne hb] at h
                  rw [(List.cons.inj h).1]
          | cons next contents =>
              rw [List.dropLast_cons_of_ne_nil (List.cons_ne_nil _ _)] at hnul
              obtain ⟨hb, htail⟩ := not_or.mp (mt List.mem_cons.mpr hnul)
              rw [cString_cons_ne (Ne.symm hb)] at h
              have ha : a ≠ 0 := by
                intro ha
                rw [ha, cString_cons_zero] at h
                contradiction
              rw [cString_cons_ne ha] at h
              obtain ⟨hab, hsame⟩ := List.cons.inj h
              rw [hab, ih htail hrest hsame]

theorem cString_append_zero {s : Octets} (hs : 0 ∉ s) (t : Octets) :
    cString (s ++ 0 :: t) = s := by
  induction s with
  | nil => exact cString_cons_zero t
  | cons b s ih =>
      obtain ⟨hb, hs⟩ := not_or.mp (mt List.mem_cons.mpr hs)
      rw [List.cons_append, cString_cons_ne (Ne.symm hb), ih hs]

namespace ReadStaticOctets

/-- The context once the input was offered. -/
def offered (contents input : Octets) (eof : Bool) :
    InputOutputOperationContext :=
  { (handleRead contents {} input).2 with eof := eof }

def Accepts (contents input : Octets) (eof : Bool) : Prop :=
  apply contents (offered contents input eof) = .value (.bool true)

/-- The bytes that the read takes from the input. -/
def consumed (contents input : Octets) : Octets :=
  input.take (handleRead contents {} input).1

variable {contents input : Octets} {eof : Bool}

theorem accepts_iff :
    Accepts contents input eof ↔ contents.length ≤ input.length ∧
      cString (input.take contents.length) = cString contents := by
  by_cases hshort : input.length < contents.length
  · have hlength : ¬ contents.length ≤ input.length := Nat.not_le.mpr hshort
    have hsome : (0 : Nat) < contents.length := Nat.zero_lt_of_lt hshort
    cases eof <;>
      simp only [Accepts, offered, handleRead, hshort, apply, hlength,
        List.length_nil, hsome, if_true, false_and, iff_false] <;>
      simp
  · have hle : contents.length ≤ input.length := Nat.le_of_not_lt hshort
    have htake : (input.take contents.length).length = contents.length := by
      simp [hle]
    rw [← strncmpEqual_iff htake]
    cases hequal : strncmpEqual contents.length (input.take contents.length)
      contents <;>
      simp [Accepts, offered, handleRead, hshort, apply, hle, hequal]

theorem consumed_eq_iff :
    consumed contents input = contents ↔ contents.length ≤ input.length ∧
      input.take contents.length = contents := by
  by_cases hshort : input.length < contents.length
  · have hlength : ¬ contents.length ≤ input.length := Nat.not_le.mpr hshort
    have hne : [] ≠ contents := by
      rintro rfl
      exact Nat.not_lt_zero _ hshort
    simp [consumed, handleRead, hshort, hlength, hne]
  · have hle : contents.length ≤ input.length := Nat.le_of_not_lt hshort
    simp [consumed, handleRead, hshort, hle]

end ReadStaticOctets

namespace TransitionLookahead

variable {ctx : InputOutputOperationContext} {octets target : Octets}
  {condition : TransitionCondition}
  {before after : List (TransitionCondition × Octets)}

/-- The first condition that holds selects its transition. -/
theorem select_of_holds
    (hbefore : ∀ earlier ∈ before, (matchCondition ctx earlier.1).1 = false)
    (hholds : (matchCondition ctx condition).1 = true) (invalid : Bool) :
    select ctx (before ++ (condition, target) :: after) invalid =
      .value (.octets target) := by
  induction before generalizing invalid with
  | nil => simp [select, hholds]
  | cons earlier before ih =>
      obtain ⟨first, name⟩ := earlier
      have hfirst := hbefore (first, name) List.mem_cons_self
      have hrest : ∀ earlier ∈ before,
          (matchCondition ctx earlier.1).1 = false := fun earlier hearlier =>
        hbefore earlier (List.mem_cons_of_mem _ hearlier)
      simp only [List.cons_append, select, hfirst]
      exact ih hrest _

/-- A transition that is selected has a condition that holds. -/
theorem holds_of_select {conditions : List (TransitionCondition × Octets)}
    {invalid : Bool}
    (h : select ctx conditions invalid = .value (.octets target)) :
    ∃ condition, (condition, target) ∈ conditions ∧
      (matchCondition ctx condition).1 = true := by
  induction conditions generalizing invalid with
  | nil => cases invalid <;> simp [select] at h
  | cons first conditions ih =>
      obtain ⟨condition, name⟩ := first
      cases hholds : (matchCondition ctx condition).1 with
      | true =>
          have hname : name = target := by
            simpa [select, hholds] using h
          exact ⟨condition, by simp [hname], hholds⟩
      | false =>
          simp only [select, hholds] at h
          obtain ⟨other, hmem, hother⟩ := ih h
          exact ⟨other, List.mem_cons_of_mem _ hmem, hother⟩

/-- The context once the input was offered. -/
def offered (input : Octets) (eof : Bool) : InputOutputOperationContext :=
  { (handleRead {} input).2 with eof := eof }

theorem matchCondition_static (octets input : Octets) (eof : Bool) :
    (matchCondition (offered input eof) (.static octets)).1 = true ↔
      octets <+: input ∧ octets ≠ input :=
  matchCondition_fits (offered input eof) (.static octets)

end TransitionLookahead

namespace ReadStaticOctets

open TransitionLookahead (matchCondition)

variable {contents input : Octets} {eof : Bool}

theorem accepts_of_startsWith (h : contents <+: input) :
    Accepts contents input eof := by
  refine accepts_iff.mpr ⟨h.length_le, ?_⟩
  rw [← List.prefix_iff_eq_take.mp h]

/-- The read yields true exactly if the bytes that it took are its piece. -/
def MatchesExactly (contents input : Octets) (eof : Bool) : Prop :=
  Accepts contents input eof ↔ consumed contents input = contents

/-- A lookahead whose transition for the piece is the only one of its name
selects it only where the read accepts, and both do where the piece and one
more byte have arrived. -/
def AgreesWithLookahead (contents input : Octets) (eof : Bool) : Prop :=
  ∀ before after target,
    ((∀ other ∈ before ++ after, other.2 ≠ target) →
      TransitionLookahead.apply (before ++ (.static contents, target) :: after)
        (TransitionLookahead.offered input eof) = .value (.octets target) →
      Accepts contents input eof) ∧
    ((∃ b, contents ++ [b] <+: input) →
      Accepts contents input eof ∧
      ((∀ earlier ∈ before, (matchCondition
          (TransitionLookahead.offered input eof) earlier.1).1 = false) →
        TransitionLookahead.apply
          (before ++ (.static contents, target) :: after)
          (TransitionLookahead.offered input eof) = .value (.octets target)))

theorem agreesWithLookahead (contents input : Octets) (eof : Bool) :
    AgreesWithLookahead contents input eof := by
  intro before after target
  constructor
  · intro hnames hselects
    obtain ⟨condition, hmem, hholds⟩ :=
      TransitionLookahead.holds_of_select hselects
    have hcondition : condition = .static contents := by
      rcases List.mem_append.mp hmem with hbefore | hrest
      · exact absurd rfl
          (hnames _ (List.mem_append_left after hbefore))
      · rcases List.mem_cons.mp hrest with hsame | hafter
        · exact (Prod.mk.inj hsame).1
        · exact absurd rfl (hnames _ (List.mem_append_right before hafter))
    rw [hcondition] at hholds
    exact accepts_of_startsWith
      ((TransitionLookahead.matchCondition_static _ _ _).mp hholds).1
  · rintro ⟨b, hstarts⟩
    have hfront : contents <+: input := (List.prefix_append _ _).trans hstarts
    have hne : contents ≠ input := by
      intro heq
      have hlength := hstarts.length_le
      rw [← heq, List.length_append] at hlength
      exact Nat.not_succ_le_self _ hlength
    have hholds := (TransitionLookahead.matchCondition_static contents input
      eof).mpr ⟨hfront, hne⟩
    exact ⟨accepts_of_startsWith hfront, fun hbefore =>
      TransitionLookahead.select_of_holds hbefore hholds true⟩

theorem matchesExactly_iff (contents input : Octets) (eof : Bool) :
    MatchesExactly contents input eof ↔
      (contents.length ≤ input.length →
        cString (input.take contents.length) = cString contents →
        input.take contents.length = contents) := by
  rw [MatchesExactly, accepts_iff, consumed_eq_iff]
  constructor
  · intro h hle hsame
    exact (h.mp ⟨hle, hsame⟩).2
  · intro h
    refine ⟨fun haccepts => ⟨haccepts.1, h haccepts.1 haccepts.2⟩,
      fun hexact => ⟨hexact.1, ?_⟩⟩
    rw [hexact.2]

/-- Static pieces are matched exactly and as the lookahead does exactly if the
bytes at the front of the input, where they are as many, are the piece or
differ from it as C strings. -/
theorem matched_iff (contents input : Octets) (eof : Bool) :
    MatchesExactly contents input eof ∧
      AgreesWithLookahead contents input eof ↔
    (contents.length ≤ input.length →
      cString (input.take contents.length) = cString contents →
      input.take contents.length = contents) := by
  rw [and_iff_left (agreesWithLookahead contents input eof)]
  exact matchesExactly_iff contents input eof

/-- A tag with a zero byte inside lets another tag through. -/
theorem other_tag_accepted :
    Accepts [65, 0, 66] [65, 0, 67] false ∧
      consumed [65, 0, 66] [65, 0, 67] ≠ [65, 0, 66] ∧
      ¬ ∀ contents input eof, MatchesExactly contents input eof ∧
        AgreesWithLookahead contents input eof := by
  have haccepts : Accepts [65, 0, 66] [65, 0, 67] false := rfl
  have hother : consumed [65, 0, 66] [65, 0, 67] ≠ [65, 0, 66] := by decide
  refine ⟨haccepts, hother, fun hall => ?_⟩
  exact hother ((hall [65, 0, 66] [65, 0, 67] false).1.mp haccepts)

/-- A piece is safe from every other input exactly if no zero byte stands in
front of its last byte. -/
theorem matchesExactly_always_iff (contents : Octets) :
    (∀ input eof, MatchesExactly contents input eof) ↔
      0 ∉ contents.dropLast := by
  constructor
  · intro hall hnul
    obtain ⟨front, rest, hdrop, hfront⟩ := List.eq_append_cons_of_mem hnul
    have hne : contents ≠ [] := by
      rintro rfl
      exact List.not_mem_nil hnul
    have hsplit := List.dropLast_append_getLast hne
    rw [hdrop, List.append_assoc, List.cons_append] at hsplit
    let last := contents.getLast hne
    let other : Octets := front ++ 0 :: (rest ++ [last + 1])
    have hlength : other.length = contents.length := by
      rw [← hsplit]
      simp [other]
    have hsame : cString other = cString contents := by
      rw [← hsplit, cString_append_zero hfront, cString_append_zero hfront]
    have hexact := (matchesExactly_iff contents other false).mp
      (hall other false) (Nat.le_of_eq hlength.symm)
    rw [← hlength, List.take_length] at hexact
    have heq : front ++ 0 :: (rest ++ [last + 1]) =
        front ++ 0 :: (rest ++ [last]) := (hexact hsame).trans hsplit.symm
    simp at heq
  · intro hnul input eof
    refine (matchesExactly_iff contents input eof).mpr fun hle hsame => ?_
    exact eq_of_cString_eq hnul (by simp [hle]) hsame

end ReadStaticOctets

end NetworkProtocolDsl
