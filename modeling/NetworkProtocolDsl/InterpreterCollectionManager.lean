/-
The collection of the interpreters, replaced as a whole.

A transaction loads the published collection, makes a changed copy of it, and
publishes the copy unless another collection was published meanwhile; then it
starts over.  The calls of the manager take their steps in any order.
-/
import Mathlib.Logic.Function.Basic
import NetworkProtocolDsl.Library.Run
import NetworkProtocolDsl.Value

namespace NetworkProtocolDsl

open Run

/-- An object that is shared and never changed; the version stands for its
identity. -/
structure SharedContainer (α : Type) where
  version : Nat
  container : α

/-- Where a call of `do_transaction` is. -/
inductive TransactionPoint (α : Type) where
  | loading
  | calling (current : SharedContainer α)
  | exchanging (current : SharedContainer α) (replacement : α)
  | returned
  | threw

/-- One step of `do_transaction`; the exchange may fail although nothing else
was published. -/
def SharedContainer.doTransaction {α ε : Type} (func : α → Except ε α)
    (spuriousFailure : Bool) (published : SharedContainer α) :
    TransactionPoint α → SharedContainer α × TransactionPoint α
  | .loading => (published, .calling published)
  | .calling current =>
      match func current.container with
      | .ok replacement => (published, .exchanging current replacement)
      | .error _ => (published, .threw)
  | .exchanging current replacement =>
      if current.version = published.version ∧ spuriousFailure = false then
        (⟨published.version + 1, replacement⟩, .returned)
      else (published, .loading)
  | .returned => (published, .returned)
  | .threw => (published, .threw)

/-- The interpreters by their descriptors. -/
abbrev Interpreters (κ : Type) := Int → Option κ

/-- A call of the manager. -/
inductive CollectionCall (κ : Type) where
  | insertInterpreter (fd : Int) (ctx : κ)
  | removeInterpreter (fd : Int)

/-- The exception of `insert_interpreter`. -/
inductive InsertError where
  | interpreterAlreadyExists
deriving DecidableEq, Repr

/-- What the call makes of a collection, given which interpreters have
exited. -/
def CollectionCall.func {κ : Type} (exited : κ → Bool) :
    CollectionCall κ → Interpreters κ → Except InsertError (Interpreters κ)
  | .insertInterpreter fd ctx, interpreters =>
      match interpreters fd with
      | some old =>
          if exited old then
            .ok (Function.update (Function.update interpreters fd none) fd
              (some ctx))
          else .error .interpreterAlreadyExists
      | none => .ok (Function.update interpreters fd (some ctx))
  | .removeInterpreter fd, interpreters =>
      .ok (Function.update interpreters fd none)

/-- The published collection, the flags of the interpreters and the calls. -/
structure InterpreterCollectionManager (ι κ : Type) where
  collection : SharedContainer (Interpreters κ)
  exited : κ → Bool
  calls : ι → TransactionPoint (Interpreters κ)

/-- A call takes its next step, or an interpreter exits. -/
inductive ManagerEvent (ι κ : Type) where
  | call (i : ι) (spuriousFailure : Bool)
  | exits (ctx : κ)

namespace InterpreterCollectionManager

variable {ι κ : Type} [DecidableEq ι] (requests : ι → CollectionCall κ)

def event [DecidableEq κ] : ManagerEvent ι κ →
    InterpreterCollectionManager ι κ →
    Except Fault (InterpreterCollectionManager ι κ)
  | .call i spuriousFailure, s =>
      let (collection, point) := s.collection.doTransaction
        ((requests i).func s.exited) spuriousFailure (s.calls i)
      .ok { s with
        collection := collection
        calls := Function.update s.calls i point }
  | .exits ctx, s =>
      .ok { s with exited := Function.update s.exited ctx true }

/-- No call has begun, and the collection is empty. -/
def start (exited : κ → Bool) : InterpreterCollectionManager ι κ where
  collection := ⟨0, fun _ => none⟩
  exited := exited
  calls := fun _ => .loading

/-- The calls one after the other. -/
def serially (exited : κ → Bool) (order : List ι)
    (interpreters : Interpreters κ) : Except InsertError (Interpreters κ) :=
  order.foldlM (fun interpreters i => (requests i).func exited interpreters)
    interpreters

/-- The published collection is what the calls that returned make of the empty
one in this order. -/
structure SerialisedBy (order : List ι)
    (s : InterpreterCollectionManager ι κ) : Prop where
  nodup : order.Nodup
  returned : ∀ i, i ∈ order ↔ s.calls i = .returned
  collection : serially requests s.exited order (fun _ => none) =
    .ok s.collection.container

/-- The collection was published, and it is the published one unless another
followed it. -/
def Loaded (published current : SharedContainer (Interpreters κ)) : Prop :=
  current.version ≤ published.version ∧
    (current.version = published.version → current = published)

/-- What a call has loaded was published, and what it wants to publish is what
it makes of that. -/
def PointInvariant (s : InterpreterCollectionManager ι κ) (i : ι) :
    TransactionPoint (Interpreters κ) → Prop
  | .calling current => Loaded s.collection current
  | .exchanging current replacement => Loaded s.collection current ∧
      (requests i).func s.exited current.container = .ok replacement
  | .loading | .returned | .threw => True

omit [DecidableEq ι] in
theorem exited_mono [DecidableEq κ] (exited : κ → Bool) (ctx : κ) :
    ∀ other, exited other = true →
      Function.update exited ctx true other = true := by
  intro other h
  by_cases hother : other = ctx
  · rw [hother, Function.update_self]
  · rw [Function.update_of_ne hother, h]

section Flags

variable {exited exited' : κ → Bool}
  (hexited : ∀ ctx, exited ctx = true → exited' ctx = true)

include hexited

/-- What succeeds goes on to succeed when more interpreters have exited. -/
theorem func_mono {request : CollectionCall κ}
    {interpreters result : Interpreters κ}
    (h : request.func exited interpreters = .ok result) :
    request.func exited' interpreters = .ok result := by
  cases request with
  | insertInterpreter fd ctx =>
      simp only [CollectionCall.func] at h ⊢
      cases hold : interpreters fd with
      | none =>
          rw [hold] at h
          exact h
      | some old =>
          simp only [hold] at h ⊢
          by_cases hflag : exited old = true
          · rw [if_pos hflag] at h
            rw [if_pos (hexited old hflag)]
            exact h
          · rw [if_neg hflag] at h
            contradiction
  | removeInterpreter fd => exact h

omit [DecidableEq ι] in
theorem serially_mono {order : List ι} {interpreters result : Interpreters κ}
    (h : serially requests exited order interpreters = .ok result) :
    serially requests exited' order interpreters = .ok result := by
  induction order generalizing interpreters with
  | nil => exact h
  | cons i order ih =>
      rw [serially, List.foldlM_cons] at h ⊢
      cases hfirst : (requests i).func exited interpreters with
      | error e =>
          rw [hfirst] at h
          contradiction
      | ok middle =>
          rw [hfirst] at h
          rw [func_mono hexited hfirst]
          exact ih h

end Flags

omit [DecidableEq ι] in
theorem serially_concat {exited : κ → Bool} {order : List ι} {i : ι}
    {interpreters middle result : Interpreters κ}
    (horder : serially requests exited order interpreters = .ok middle)
    (hi : (requests i).func exited middle = .ok result) :
    serially requests exited (order ++ [i]) interpreters = .ok result := by
  rw [serially] at horder ⊢
  rw [List.foldlM_append, horder]
  change (requests i).func exited middle >>= pure = _
  rw [hi]
  rfl

variable {requests} {s t : InterpreterCollectionManager ι κ} {order : List ι}

/-- A call that goes on without publishing. -/
theorem SerialisedBy.goes_on (hs : SerialisedBy requests order s) {i : ι}
    {point : TransactionPoint (Interpreters κ)}
    (hreturned : point = .returned ↔ s.calls i = .returned) :
    SerialisedBy requests order
      { s with calls := Function.update s.calls i point } := by
  refine ⟨hs.nodup, fun j => ?_, hs.collection⟩
  rw [hs.returned j]
  change s.calls j = .returned ↔ Function.update s.calls i point j = .returned
  by_cases hj : j = i
  · subst hj
    rw [Function.update_self, hreturned]
  · rw [Function.update_of_ne hj]

/-- A call that publishes comes last. -/
theorem SerialisedBy.publishes (hs : SerialisedBy requests order s) {i : ι}
    (hopen : s.calls i ≠ .returned) {replacement : Interpreters κ}
    (hfunc : (requests i).func s.exited s.collection.container =
      .ok replacement) :
    SerialisedBy requests (order ++ [i]) { s with
      collection := ⟨s.collection.version + 1, replacement⟩
      calls := Function.update s.calls i .returned } := by
  have hfresh : i ∉ order := fun h => hopen ((hs.returned i).mp h)
  refine ⟨?_, fun j => ?_, serially_concat requests hs.collection hfunc⟩
  · rw [List.nodup_append]
    refine ⟨hs.nodup, List.pairwise_singleton _ i, fun a ha b hb => ?_⟩
    rw [List.mem_singleton.mp hb]
    rintro rfl
    exact hfresh ha
  · rw [List.mem_append, List.mem_singleton, hs.returned j]
    change _ ↔ Function.update s.calls i .returned j = .returned
    by_cases hj : j = i
    · subst hj
      rw [Function.update_self]
      exact iff_of_true (Or.inr rfl) rfl
    · rw [Function.update_of_ne hj]
      exact or_iff_left hj

/-- The invariant of the calls when one of them goes on without publishing. -/
theorem pointInvariant_goes_on
    (hs : ∀ j, PointInvariant requests s j (s.calls j)) {i : ι}
    {point : TransactionPoint (Interpreters κ)}
    (hpoint : PointInvariant requests s i point) :
    ∀ j, PointInvariant requests
      { s with calls := Function.update s.calls i point } j
      (Function.update s.calls i point j) := by
  intro j
  by_cases hj : j = i
  · subst hj
    rw [Function.update_self]
    cases point <;> exact hpoint
  · rw [Function.update_of_ne hj]
    have hother := hs j
    cases hcall : s.calls j <;> rw [hcall] at hother <;> exact hother

theorem Loaded.publishes {published current : SharedContainer (Interpreters κ)}
    (h : Loaded published current) (replacement : Interpreters κ) :
    Loaded ⟨published.version + 1, replacement⟩ current := by
  constructor
  · exact Nat.le_succ_of_le h.1
  · intro heq
    have hle := h.1
    change current.version = published.version + 1 at heq
    omega

/-- The invariant of the calls when one of them publishes. -/
theorem pointInvariant_publishes
    (hs : ∀ j, PointInvariant requests s j (s.calls j)) (i : ι)
    (replacement : Interpreters κ) :
    ∀ j, PointInvariant requests { s with
      collection := ⟨s.collection.version + 1, replacement⟩
      calls := Function.update s.calls i .returned } j
      (Function.update s.calls i .returned j) := by
  intro j
  by_cases hj : j = i
  · subst hj
    rw [Function.update_self]
    trivial
  · rw [Function.update_of_ne hj]
    have hother := hs j
    cases hcall : s.calls j with
    | calling current =>
        rw [hcall] at hother
        exact hother.publishes replacement
    | exchanging current copy =>
        rw [hcall] at hother
        exact ⟨hother.1.publishes replacement, hother.2⟩
    | loading | returned | threw => trivial

variable [DecidableEq κ]

omit [DecidableEq ι] in
/-- An interpreter that exits changes nothing for the calls. -/
theorem pointInvariant_exits
    (hs : ∀ j, PointInvariant requests s j (s.calls j)) (ctx : κ) :
    ∀ j, PointInvariant requests
      { s with exited := Function.update s.exited ctx true } j
      (s.calls j) := by
  intro j
  have hcall := hs j
  cases hpoint : s.calls j with
  | exchanging current replacement =>
      rw [hpoint] at hcall
      exact ⟨hcall.1, func_mono (exited_mono s.exited ctx) hcall.2⟩
  | calling current =>
      rw [hpoint] at hcall
      exact hcall
  | loading | returned | threw => trivial

/-- One step keeps the order, or adds the call that returns to its end. -/
theorem serialised_step {e : ManagerEvent ι κ}
    (hcalls : ∀ i, PointInvariant requests s i (s.calls i))
    (hs : SerialisedBy requests order s) (h : event requests e s = .ok t) :
    (∀ i, PointInvariant requests t i (t.calls i)) ∧
      ∃ more, SerialisedBy requests (order ++ more) t := by
  have hgoes : ∀ (i : ι) (point : TransactionPoint (Interpreters κ)),
      PointInvariant requests s i point →
      (point = .returned ↔ s.calls i = .returned) →
      t = { s with calls := Function.update s.calls i point } →
      (∀ i, PointInvariant requests t i (t.calls i)) ∧
        ∃ more, SerialisedBy requests (order ++ more) t := by
    rintro i point hpoint hreturned rfl
    refine ⟨pointInvariant_goes_on hcalls hpoint, [], ?_⟩
    rw [List.append_nil]
    exact hs.goes_on hreturned
  cases e with
  | exits ctx =>
      obtain rfl := Except.ok.inj h
      refine ⟨pointInvariant_exits hcalls ctx, [], ?_⟩
      rw [List.append_nil]
      exact ⟨hs.nodup, hs.returned,
        serially_mono requests (exited_mono s.exited ctx) hs.collection⟩
  | call i spuriousFailure =>
      have ht := Except.ok.inj h
      have hcall := hcalls i
      cases hpoint : s.calls i with
      | loading =>
          rw [hpoint] at ht
          exact hgoes i (.calling s.collection) ⟨Nat.le_refl _, fun _ => rfl⟩
            (by simp [hpoint]) ht.symm
      | calling current =>
          rw [hpoint] at ht hcall
          cases hfunc : (requests i).func s.exited current.container with
          | ok replacement =>
              simp only [hfunc] at ht
              exact hgoes i (.exchanging current replacement) ⟨hcall, hfunc⟩
                (by simp [hpoint]) ht.symm
          | error e =>
              simp only [hfunc] at ht
              exact hgoes i .threw trivial (by simp [hpoint]) ht.symm
      | exchanging current replacement =>
          rw [hpoint] at ht hcall
          obtain ⟨⟨_, hsame⟩, hfunc⟩ := hcall
          by_cases hexchange : current.version = s.collection.version ∧
              spuriousFailure = false
          · simp only [if_pos hexchange] at ht
            subst ht
            rw [hsame hexchange.1] at hfunc
            exact ⟨pointInvariant_publishes hcalls i replacement, [i],
              hs.publishes (by simp [hpoint]) hfunc⟩
          · simp only [if_neg hexchange] at ht
            exact hgoes i .loading trivial (by simp [hpoint]) ht.symm
      | returned =>
          rw [hpoint] at ht
          exact hgoes i .returned trivial (by simp [hpoint]) ht.symm
      | threw =>
          rw [hpoint] at ht
          exact hgoes i .threw trivial (by simp [hpoint]) ht.symm

/-- A run only adds to the order, and every state on its way is what a first
part of the order makes. -/
theorem serialised_run {events : List (ManagerEvent ι κ)}
    (hcalls : ∀ i, PointInvariant requests s i (s.calls i))
    (hs : SerialisedBy requests order s)
    (hrun : run (event requests) events s = .ok t) :
    ∃ more, SerialisedBy requests (order ++ more) t ∧
      ∀ before after u, events = before ++ after →
        run (event requests) before s = .ok u →
          ∃ k, SerialisedBy requests (order ++ more.take k) u := by
  induction events generalizing s order with
  | nil =>
      obtain rfl := Except.ok.inj hrun
      refine ⟨[], by rwa [List.append_nil], fun before after u hsplit hu => ?_⟩
      obtain ⟨rfl, _⟩ := List.append_eq_nil_iff.mp hsplit.symm
      obtain rfl := Except.ok.inj hu
      exact ⟨0, by rwa [List.take_nil, List.append_nil]⟩
  | cons e events ih =>
      obtain ⟨middle, hstep, hrest⟩ := run_cons_eq_ok hrun
      obtain ⟨hcalls', added, hs'⟩ := serialised_step hcalls hs hstep
      obtain ⟨more, ht, hparts⟩ := ih hcalls' hs' hrest
      rw [List.append_assoc] at ht
      refine ⟨added ++ more, ht, fun before after u hsplit hu => ?_⟩
      cases before with
      | nil =>
          obtain rfl := Except.ok.inj hu
          exact ⟨0, by rwa [List.take_zero, List.append_nil]⟩
      | cons first before =>
          obtain ⟨rfl, hrestSplit⟩ := List.cons.inj hsplit
          rw [run_cons_of_ok hstep] at hu
          obtain ⟨k, hk⟩ := hparts before after u hrestSplit hu
          refine ⟨added.length + k, ?_⟩
          rw [List.take_length_add_append, ← List.append_assoc]
          exact hk

/-- A call that has not returned has published nothing. -/
theorem collection_of_not_returned {i : ι} {spuriousFailure : Bool}
    (h : event requests (.call i spuriousFailure) s = .ok t)
    (hopen : t.calls i ≠ .returned) : t.collection = s.collection := by
  obtain rfl := Except.ok.inj h
  change Function.update s.calls i _ i ≠ .returned at hopen
  rw [Function.update_self] at hopen
  change (SharedContainer.doTransaction _ _ _ _).1 = s.collection
  cases hpoint : s.calls i with
  | loading | returned | threw => rfl
  | calling current =>
      simp only [SharedContainer.doTransaction]
      split <;> rfl
  | exchanging current replacement =>
      rw [hpoint] at hopen
      simp only [SharedContainer.doTransaction] at hopen ⊢
      split at hopen
      · contradiction
      · rename_i hfails
        rw [if_neg hfails]

/-- A call that has returned stays so. -/
theorem returned_step {e : ManagerEvent ι κ} {i : ι}
    (h : event requests e s = .ok t) (hs : s.calls i = .returned) :
    t.calls i = .returned := by
  cases e with
  | exits ctx =>
      obtain rfl := Except.ok.inj h
      exact hs
  | call j spuriousFailure =>
      obtain rfl := Except.ok.inj h
      change Function.update s.calls j _ i = .returned
      by_cases hij : i = j
      · subst hij
        rw [Function.update_self, hs]
      · rw [Function.update_of_ne hij, hs]

theorem returned_of_run {events : List (ManagerEvent ι κ)} {i : ι}
    (hrun : run (event requests) events s = .ok t)
    (hs : s.calls i = .returned) : t.calls i = .returned :=
  run_invariant (fun _ u _ (_ : True) (hu : u.calls i = .returned) h =>
    returned_step h hu) (fun _ _ => trivial) hs hrun

/-- In every run the published collection is what the calls that returned make
of the empty one, one after the other; a snapshot taken on the way is what the
first of them make; and no step of a call that threw changed anything. -/
theorem updates_serialisable (requests : ι → CollectionCall κ)
    (exited : κ → Bool) (events : List (ManagerEvent ι κ))
    (s : InterpreterCollectionManager ι κ)
    (hrun : run (event requests) events (start exited) = .ok s) :
    (∃ order, SerialisedBy requests order s ∧
      ∀ before after snapshot, events = before ++ after →
        run (event requests) before (start exited) = .ok snapshot →
          ∃ k, SerialisedBy requests (order.take k) snapshot) ∧
    ∀ i, s.calls i = .threw → ∀ before spuriousFailure after t u,
      events = before ++ .call i spuriousFailure :: after →
        run (event requests) before (start exited) = .ok t →
        event requests (.call i spuriousFailure) t = .ok u →
          u.collection = t.collection := by
  constructor
  · have hcalls : ∀ i, PointInvariant requests (start exited) i
        ((start exited : InterpreterCollectionManager ι κ).calls i) :=
      fun _ => trivial
    have hstart : SerialisedBy requests []
        (start exited : InterpreterCollectionManager ι κ) := by
      refine ⟨List.nodup_nil, fun i => ?_, rfl⟩
      exact iff_of_false List.not_mem_nil (by simp [start])
    exact serialised_run hcalls hstart hrun
  · intro i hthrew before spuriousFailure after t u hsplit ht hu
    refine collection_of_not_returned hu fun hreturned => ?_
    subst hsplit
    rw [run_append ht, run_cons_of_ok hu] at hrun
    rw [returned_of_run hrun hreturned] at hthrew
    contradiction

/-- An insertion and a removal of the same descriptor, both begun on the empty
collection; the exchange of the removal fails and it starts over. -/
theorem updates_serialisable_overlapping :
    ∃ s : InterpreterCollectionManager Bool Unit,
      s.calls true = .returned ∧ s.calls false = .returned ∧
      s.collection.container 7 = none ∧
      ∃ order, SerialisedBy (fun i => if i then .removeInterpreter 7
        else .insertInterpreter 7 ()) order s := by
  let requests : Bool → CollectionCall Unit := fun i =>
    if i then .removeInterpreter 7 else .insertInterpreter 7 ()
  let events : List (ManagerEvent Bool Unit) :=
    [.call false false, .call true false, .call false false, .call true false,
      .call false false, .call true false, .call true false,
      .call true false, .call true false]
  obtain ⟨⟨order, hserial, _⟩, _⟩ :=
    updates_serialisable requests (fun _ => false) events _ rfl
  exact ⟨_, rfl, rfl, rfl, order, hserial⟩

end InterpreterCollectionManager

end NetworkProtocolDsl
