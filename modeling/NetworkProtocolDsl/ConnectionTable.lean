/-
The connection table of the server wrapper for generated code.

The table goes by the descriptor.  The operating system may give a descriptor
again as soon as the close of its connection was requested; the callback of
that close runs later, and erases what the table then has for the descriptor.
-/
import Mathlib.Logic.Function.Basic
import NetworkProtocolDsl.Library.Run
import NetworkProtocolDsl.Value

namespace NetworkProtocolDsl

open Run

/-- A connection from its accept to the callback of its close. -/
inductive ConnectionPhase where
  | notAccepted
  | opened (fd : Int)
  | closing (fd : Int)
  | closed
deriving DecidableEq, Repr

/-- `connections` is the table of the wrapper and `descriptors` that of the
operating system. -/
structure ConnectionTable (κ : Type) where
  connections : Int → Option κ := fun _ => none
  descriptors : Int → Option κ := fun _ => none
  phase : κ → ConnectionPhase := fun _ => .notAccepted

inductive TableEvent (κ : Type) where
  | newConnection (conn : κ) (fd : Int)
  | closeRequested (conn : κ)
  | closeCallback (conn : κ)

namespace ConnectionTable

variable {κ : Type} [DecidableEq κ]

/-- `on_new_connection`: what the table had for the descriptor is replaced.  The
operating system gives no descriptor that is in use. -/
def onNewConnection (s : ConnectionTable κ) (conn : κ) (fd : Int) :
    ConnectionTable κ :=
  if s.phase conn = .notAccepted ∧ (s.descriptors fd).isNone then
    { connections := Function.update s.connections fd (some conn)
      descriptors := Function.update s.descriptors fd (some conn)
      phase := Function.update s.phase conn (.opened fd) }
  else s

/-- `uv_close`, unless the connection is closing already; the descriptor is
free at once. -/
def requestClose (s : ConnectionTable κ) (conn : κ) : ConnectionTable κ :=
  match s.phase conn with
  | .opened fd =>
      { s with
        descriptors := Function.update s.descriptors fd none
        phase := Function.update s.phase conn (.closing fd) }
  | _ => s

/-- `on_close`.  A connection that was replaced in the table has been deleted by
then; its descriptor is read as its memory last had it. -/
def onClose (s : ConnectionTable κ) (conn : κ) : ConnectionTable κ :=
  match s.phase conn with
  | .closing fd =>
      { s with
        connections := Function.update s.connections fd none
        phase := Function.update s.phase conn .closed }
  | _ => s

def event : TableEvent κ → ConnectionTable κ →
    Except Fault (ConnectionTable κ)
  | .newConnection conn fd, s => .ok (s.onNewConnection conn fd)
  | .closeRequested conn, s => .ok (s.requestClose conn)
  | .closeCallback conn, s => .ok (s.onClose conn)

/-- A descriptor in use leads to the connection that is open on it, and what
`on_close` of a connection would erase is the entry of that connection. -/
structure NamesLive (s : ConnectionTable κ) : Prop where
  live : ∀ fd conn, s.descriptors fd = some conn →
    s.connections fd = some conn
  own : ∀ conn fd, s.phase conn = .closing fd →
    ∀ other, s.connections fd = some other → other = conn

/-- No descriptor is given to a new connection before the callback of the close
of its last one has run. -/
def KeepsDescriptor (e : TableEvent κ) (s : ConnectionTable κ) : Prop :=
  ∀ conn fd, e = .newConnection conn fd → s.phase conn = .notAccepted →
    s.descriptors fd = none → ∀ other, s.phase other ≠ .closing fd

/-- The descriptors in use are those of the open connections. -/
def InUse (s : ConnectionTable κ) : Prop :=
  ∀ fd conn, s.descriptors fd = some conn ↔ s.phase conn = .opened fd

variable {s t : ConnectionTable κ}

theorem onNewConnection_step (hs : s.NamesLive) (huse : s.InUse) {conn : κ}
    {fd : Int} (hnew : s.phase conn = .notAccepted)
    (hfree : s.descriptors fd = none) :
    (s.onNewConnection conn fd).InUse ∧
      ((s.onNewConnection conn fd).NamesLive ↔
        ∀ other, s.phase other ≠ .closing fd) := by
  rw [onNewConnection, if_pos ⟨hnew, by rw [hfree]; rfl⟩]
  refine ⟨fun fd' other => ?_, fun ht other hother => ?_, fun hkeeps => ?_⟩
  · change Function.update s.descriptors fd (some conn) fd' = some other ↔
      Function.update s.phase conn (.opened fd) other = .opened fd'
    by_cases hfd : fd' = fd
    · subst hfd
      rw [Function.update_self]
      by_cases hconn : other = conn
      · subst hconn
        rw [Function.update_self]
        exact iff_of_true rfl rfl
      · rw [Function.update_of_ne hconn, ← huse, hfree]
        exact iff_of_false (fun h => hconn (Option.some.inj h).symm)
          (by simp)
    · rw [Function.update_of_ne hfd]
      by_cases hconn : other = conn
      · subst hconn
        rw [Function.update_self, huse, hnew]
        exact iff_of_false (by simp)
          (fun h => hfd (ConnectionPhase.opened.inj h).symm)
      · rw [Function.update_of_ne hconn]
        exact huse fd' other
  · have hne : other ≠ conn := by
      rintro rfl
      rw [hnew] at hother
      contradiction
    have hphase : Function.update s.phase conn (.opened fd) other =
        .closing fd := by rw [Function.update_of_ne hne, hother]
    exact hne (ht.own other fd hphase conn
      (Function.update_self fd (some conn) s.connections)).symm
  · constructor
    · intro fd' other hother
      change Function.update s.connections fd (some conn) fd' = some other
      change Function.update s.descriptors fd (some conn) fd' = some other
        at hother
      by_cases hfd : fd' = fd
      · subst hfd
        rwa [Function.update_self] at hother ⊢
      · rw [Function.update_of_ne hfd] at hother ⊢
        exact hs.live fd' other hother
    · intro other fd' hother entry hentry
      change Function.update s.phase conn (.opened fd) other = .closing fd'
        at hother
      change Function.update s.connections fd (some conn) fd' = some entry
        at hentry
      by_cases hconn : other = conn
      · subst hconn
        rw [Function.update_self] at hother
        contradiction
      · rw [Function.update_of_ne hconn] at hother
        by_cases hfd : fd' = fd
        · subst hfd
          exact absurd hother (hkeeps other)
        · rw [Function.update_of_ne hfd] at hentry
          exact hs.own other fd' hother entry hentry

theorem requestClose_step (hs : s.NamesLive) (huse : s.InUse) (conn : κ) :
    (s.requestClose conn).InUse ∧ (s.requestClose conn).NamesLive := by
  rw [requestClose]
  split
  · rename_i fd hopened
    have hentry : s.connections fd = some conn :=
      hs.live fd conn ((huse fd conn).mpr hopened)
    refine ⟨fun fd' other => ?_, fun fd' other hother => ?_,
      fun other fd' hother entry hfound => ?_⟩
    · change Function.update s.descriptors fd none fd' = some other ↔
        Function.update s.phase conn (.closing fd) other = .opened fd'
      by_cases hconn : other = conn
      · subst hconn
        rw [Function.update_self]
        refine iff_of_false (fun h => ?_) (by simp)
        by_cases hfd : fd' = fd
        · subst hfd
          rw [Function.update_self] at h
          contradiction
        · rw [Function.update_of_ne hfd, huse, hopened] at h
          exact hfd (ConnectionPhase.opened.inj h).symm
      · rw [Function.update_of_ne hconn, ← huse]
        by_cases hfd : fd' = fd
        · subst hfd
          rw [Function.update_self, (huse fd' conn).mpr hopened]
          exact iff_of_false (by simp)
            (fun h => hconn (Option.some.inj h).symm)
        · rw [Function.update_of_ne hfd]
    · change Function.update s.descriptors fd none fd' = some other at hother
      by_cases hfd : fd' = fd
      · subst hfd
        rw [Function.update_self] at hother
        contradiction
      · rw [Function.update_of_ne hfd] at hother
        exact hs.live fd' other hother
    · change Function.update s.phase conn (.closing fd) other = .closing fd'
        at hother
      by_cases hconn : other = conn
      · subst hconn
        rw [Function.update_self] at hother
        obtain rfl := ConnectionPhase.closing.inj hother
        exact (Option.some.inj (hentry.symm.trans hfound)).symm
      · rw [Function.update_of_ne hconn] at hother
        exact hs.own other fd' hother entry hfound
  · exact ⟨huse, hs⟩

theorem onClose_step (hs : s.NamesLive) (huse : s.InUse) (conn : κ) :
    (s.onClose conn).InUse ∧ (s.onClose conn).NamesLive := by
  rw [onClose]
  split
  · rename_i fd hclosing
    refine ⟨fun fd' other => ?_, fun fd' other hother => ?_,
      fun other fd' hother entry hfound => ?_⟩
    · change s.descriptors fd' = some other ↔
        Function.update s.phase conn .closed other = .opened fd'
      by_cases hconn : other = conn
      · subst hconn
        rw [Function.update_self, huse, hclosing]
        exact iff_of_false (by simp) (by simp)
      · rw [Function.update_of_ne hconn]
        exact huse fd' other
    · change Function.update s.connections fd none fd' = some other
      have hentry := hs.live fd' other hother
      by_cases hfd : fd' = fd
      · subst hfd
        obtain rfl := hs.own conn fd' hclosing other hentry
        have hopened := (huse fd' other).mp hother
        rw [hclosing] at hopened
        contradiction
      · rw [Function.update_of_ne hfd]
        exact hentry
    · change Function.update s.phase conn .closed other = .closing fd'
        at hother
      change Function.update s.connections fd none fd' = some entry at hfound
      by_cases hconn : other = conn
      · subst hconn
        rw [Function.update_self] at hother
        contradiction
      · rw [Function.update_of_ne hconn] at hother
        by_cases hfd : fd' = fd
        · subst hfd
          rw [Function.update_self] at hfound
          contradiction
        · rw [Function.update_of_ne hfd] at hfound
          exact hs.own other fd' hother entry hfound
  · exact ⟨huse, hs⟩

/-- One step keeps the table right exactly if it does not give a descriptor too
early. -/
theorem namesLive_step {e : TableEvent κ} (hs : s.InUse ∧ s.NamesLive)
    (h : event e s = .ok t) :
    (t.NamesLive ↔ KeepsDescriptor e s) ∧
      (t.NamesLive → t.InUse ∧ t.NamesLive) := by
  obtain ⟨huse, hs⟩ := hs
  have hkept : t.InUse ∧ t.NamesLive → KeepsDescriptor e s →
      (t.NamesLive ↔ KeepsDescriptor e s) ∧
        (t.NamesLive → t.InUse ∧ t.NamesLive) :=
    fun ht hkeeps => ⟨iff_of_true ht.2 hkeeps, fun _ => ht⟩
  cases e with
  | closeRequested conn =>
      obtain rfl := Except.ok.inj h
      exact hkept (requestClose_step hs huse conn) fun _ _ h => nomatch h
  | closeCallback conn =>
      obtain rfl := Except.ok.inj h
      exact hkept (onClose_step hs huse conn) fun _ _ h => nomatch h
  | newConnection conn fd =>
      obtain rfl := Except.ok.inj h
      by_cases hnew : s.phase conn = .notAccepted ∧ s.descriptors fd = none
      · obtain ⟨huse', hiff⟩ := onNewConnection_step hs huse hnew.1 hnew.2
        refine ⟨hiff.trans ⟨fun hkeeps => ?_, fun hkeeps => ?_⟩,
          fun ht => ⟨huse', ht⟩⟩
        · rintro conn' fd' heq _ _
          obtain ⟨rfl, rfl⟩ := TableEvent.newConnection.inj heq
          exact hkeeps
        · exact hkeeps conn fd rfl hnew.1 hnew.2
      · have hnot : ¬ (s.phase conn = .notAccepted ∧
            (s.descriptors fd).isNone) := by
          rwa [Option.isNone_iff_eq_none]
        have hsame : s.onNewConnection conn fd = s := by
          rw [onNewConnection, if_neg hnot]
        refine hkept (hsame.symm ▸ ⟨huse, hs⟩) ?_
        rintro conn' fd' heq hconn hfd
        obtain ⟨rfl, rfl⟩ := TableEvent.newConnection.inj heq
        exact absurd ⟨hconn, hfd⟩ hnew

/-- In every state of a run the table names the live connections if and only if
no descriptor is given to a new connection before the callback of the close of
its last one. -/
theorem always_namesLive_iff (events : List (TableEvent κ)) :
    Always event NamesLive events ({} : ConnectionTable κ) ↔
      EachStep event KeepsDescriptor events {} := by
  have hstart : InUse ({} : ConnectionTable κ) ∧
      NamesLive ({} : ConnectionTable κ) := by
    refine ⟨fun fd conn => iff_of_false nofun nofun, nofun, nofun⟩
  refine always_iff_eachStep (fun _ _ _ => namesLive_step) ?_
    (fun _ h => h.2) hstart
  intro e s fault _ h
  cases e <;> contradiction

/-- The descriptor of a connection that is being closed is given to the next
one: what the callback of the first would erase is the entry of the other. -/
theorem live_entry_is_erased :
    ¬ ∀ (κ : Type) [DecidableEq κ] (events : List (TableEvent κ)),
      Always event NamesLive events ({} : ConnectionTable κ) := by
  intro h
  have haccepted := h Bool [.newConnection false 7, .closeRequested false,
    .newConnection true 7]
    [.newConnection false 7, .closeRequested false, .newConnection true 7] [] _
    rfl rfl
  have hown := haccepted.own false 7 rfl true rfl
  contradiction

end ConnectionTable

end NetworkProtocolDsl
