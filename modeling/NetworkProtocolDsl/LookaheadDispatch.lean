/-
Which encodings the emitted `Parser` class reads.

Every call compares its first bytes with the static pieces of the state, and
none goes further before there are as many bytes as the longest piece has.  A
message is read where one call is given all of it; the call that continues a
message would have to start with the piece of the message again.
-/
import NetworkProtocolDsl.Library.MapM
import NetworkProtocolDsl.MainParser
import NetworkProtocolDsl.MessageRecognition
import NetworkProtocolDsl.ParserFragmentation
import Mathlib.Data.List.Dedup

namespace NetworkProtocolDsl

open Run GenerateParser OutputContext CppLiteral

section MapM

variable {β : Type}

theorem lookup_mapM_pairs {f : String → Option β} {keys : List String}
    {entries : List (String × β)} {key : String}
    (h : (keys.mapM fun key => do
      let value ← f key
      return (key, value)) = some entries) (hkey : key ∈ keys) :
    ∃ value, f key = some value ∧ entries.lookup key = some value := by
  induction keys generalizing entries with
  | nil => contradiction
  | cons first keys ih =>
      rw [List.mapM_cons] at h
      obtain ⟨entry, hentry, h⟩ := Option.bind_eq_some_iff.mp h
      obtain ⟨rest, hrest, h⟩ := Option.bind_eq_some_iff.mp h
      obtain ⟨value, hvalue, hpair⟩ := Option.bind_eq_some_iff.mp hentry
      obtain rfl := Option.some.inj hpair
      obtain rfl := Option.some.inj h
      by_cases hfirst : key = first
      · rw [hfirst, List.lookup_cons_self]
        exact ⟨value, hvalue, rfl⟩
      · rw [Assoc.lookup_cons_ne hfirst]
        exact ih hrest ((List.mem_cons.mp hkey).resolve_left hfirst)

end MapM

namespace GenerateParser

theorem le_foldl_max (pieces : List Octets) (len : Nat) :
    len ≤ pieces.foldl (fun len piece => max len piece.length) len ∧
      ∀ piece ∈ pieces, piece.length ≤
        pieces.foldl (fun len piece => max len piece.length) len := by
  induction pieces generalizing len with
  | nil => simp
  | cons first pieces ih =>
      obtain ⟨hle, hall⟩ := ih (max len first.length)
      rw [List.foldl_cons]
      refine ⟨(le_max_left _ _).trans hle, ?_⟩
      intro piece hpiece
      rcases List.mem_cons.mp hpiece with rfl | hpiece
      · exact (le_max_right _ _).trans hle
      · exact hall piece hpiece

theorem le_minLen {pieces : List Octets} {piece : Octets}
    (h : piece ∈ pieces) : piece.length ≤ minLen pieces :=
  (le_foldl_max pieces 1).2 piece h

theorem minLen_pos (pieces : List Octets) : 0 < minLen pieces :=
  (le_foldl_max pieces 1).1

theorem canUseLookahead_cons {seen pieces : List Octets} {piece : Octets}
    (hne : piece ≠ []) (hseen : piece ∉ seen) :
    canUseLookahead seen (piece :: pieces) =
      canUseLookahead (piece :: seen) pieces :=
  if_neg (not_or_intro hne hseen)

theorem canUseLookahead_of_nodup {pieces seen : List Octets}
    (hne : ∀ piece ∈ pieces, piece ≠ []) (hnodup : pieces.Nodup)
    (hseen : ∀ piece ∈ pieces, piece ∉ seen) :
    canUseLookahead seen pieces = true := by
  induction pieces generalizing seen with
  | nil => rfl
  | cons piece pieces ih =>
      rw [List.nodup_cons] at hnodup
      rw [canUseLookahead_cons (hne piece List.mem_cons_self)
        (hseen piece List.mem_cons_self)]
      refine ih (fun other hother => hne other (by simp [hother])) hnodup.2 ?_
      intro other hother hmem
      rcases List.mem_cons.mp hmem with rfl | hmem
      · exact hnodup.1 hother
      · exact hseen other (by simp [hother]) hmem

theorem getLookaheadPrefix_of_startsWith {reader : MessageReader}
    {octets : Octets} (h : reader.StartsWith octets) :
    getLookaheadPrefix reader.info = octets := by
  obtain ⟨actions, hactions⟩ := h
  rw [getLookaheadPrefix, hactions]

/-- The places of the read transitions tell them apart. -/
theorem eq_of_mem_parsersForState {readers : List MessageReader}
    {state : String} {first second : IndexedReader}
    (hfirst : first ∈ parsersForState readers state)
    (hsecond : second ∈ parsersForState readers state)
    (h : first.2 = second.2) : first = second := by
  have hmem := List.mem_zipIdx_iff_getElem?.mp (List.mem_filter.mp hfirst).1
  have hmem' := List.mem_zipIdx_iff_getElem?.mp (List.mem_filter.mp hsecond).1
  rw [h, hmem'] at hmem
  exact Prod.ext (Option.some.inj hmem).symm h

section Pieces

variable {readers : List IndexedReader} (hseveral : 2 ≤ readers.length)
  (hdistinct : readers.Pairwise fun first second =>
    first.1.Distinct second.1)

include hdistinct

theorem pairwise_pieces : (readers.map fun reader =>
    getLookaheadPrefix reader.1.info).Pairwise fun s t =>
      ¬ s <+: t ∧ ¬ t <+: s := by
  rw [List.pairwise_map]
  refine hdistinct.imp ?_
  rintro first second ⟨s, t, hs, ht, hno, hno'⟩
  rw [getLookaheadPrefix_of_startsWith hs,
    getLookaheadPrefix_of_startsWith ht]
  exact ⟨hno, hno'⟩

include hseveral

theorem piece_ne_nil : ∀ piece ∈ readers.map fun reader =>
    getLookaheadPrefix reader.1.info, piece ≠ [] := by
  have hpairwise := pairwise_pieces hdistinct
  rintro piece hpiece rfl
  obtain ⟨before, after, hsplit⟩ := List.append_of_mem hpiece
  have hlength := congrArg List.length hsplit
  rw [List.length_map, List.length_append, List.length_cons] at hlength
  rw [hsplit, List.pairwise_append, List.pairwise_cons] at hpairwise
  obtain ⟨_, ⟨hafter, _⟩, hbefore⟩ := hpairwise
  cases before with
  | cons first before =>
      exact (hbefore first List.mem_cons_self [] List.mem_cons_self).2
        List.nil_prefix
  | nil =>
      cases after with
      | cons first after =>
          exact (hafter first List.mem_cons_self).1 List.nil_prefix
      | nil =>
          rw [List.length_nil] at hlength
          omega

theorem canUseLookahead_pieces :
    canUseLookahead [] (readers.map fun reader =>
      getLookaheadPrefix reader.1.info) = true := by
  refine canUseLookahead_of_nodup (piece_ne_nil hseveral hdistinct)
    ((pairwise_pieces hdistinct).imp ?_) fun _ _ => List.not_mem_nil
  rintro s t ⟨hno, _⟩ rfl
  exact hno (List.prefix_refl s)

end Pieces

/-- A state with several messages that start differently has a lookahead. -/
theorem lookup_states {info : ProtocolInfo} {code : MainParserCode}
    (h : generate info = some code) {state : String}
    {readers : List IndexedReader}
    (hreaders : parsersForState code.readers state = readers)
    (hseveral : 2 ≤ readers.length)
    (hdistinct : readers.Pairwise fun first second =>
      first.1.Distinct second.1) :
    ∃ branches, readers.mapM lookaheadCase = some branches ∧
      code.states.lookup state = some (.lookahead (minLen (readers.map
        fun reader => getLookaheadPrefix reader.1.info)) branches) := by
  obtain ⟨parsed, _, h⟩ := Option.bind_eq_some_iff.mp h
  obtain ⟨states, hstates, h⟩ := Option.bind_eq_some_iff.mp h
  obtain rfl := Option.some.inj h
  dsimp only at hreaders ⊢
  have hne : readers ≠ [] := by
    rintro rfl
    simp at hseveral
  obtain ⟨reader, hreader⟩ := List.exists_mem_of_ne_nil readers hne
  rw [← hreaders] at hreader
  obtain ⟨hparsed, hwhen⟩ := List.mem_filter.mp hreader
  have hmem : state ∈ (parsed.map (·.info.whenState)).dedup := by
    rw [List.mem_dedup, ← of_decide_eq_true hwhen]
    have hindex := List.mem_zipIdx_iff_getElem?.mp hparsed
    exact List.mem_map_of_mem (List.mem_of_getElem? hindex)
  obtain ⟨parser, hparser, hlookup⟩ := lookup_mapM_pairs hstates hmem
  rw [hreaders] at hparser
  rw [hlookup]
  have hlookahead := canUseLookahead_pieces hseveral hdistinct
  cases readers with
  | nil => simp at hseveral
  | cons first rest =>
      cases rest with
      | nil => simp at hseveral
      | cons second rest =>
          simp only [stateParser, hlookahead, if_true] at hparser
          obtain ⟨branches, hbranches, hparser⟩ :=
            Option.bind_eq_some_iff.mp hparser
          obtain rfl := Option.some.inj hparser
          exact ⟨branches, hbranches, rfl⟩

end GenerateParser

/-- What is left of the first piece stands before the second. -/
theorem drop_append_eq {α : Type} (x y : List α) (n : Nat) :
    x.drop n ++ y = (x ++ y).drop (min n x.length) := by
  rw [List.drop_append_of_le_length (Nat.min_le_right n x.length)]
  rcases Nat.le_total n x.length with hle | hle
  · rw [Nat.min_eq_left hle]
  · rw [Nat.min_eq_right hle, List.drop_length, List.drop_eq_nil_of_le hle]

/-- What a call of the class comes to. -/
structure MainOutcome where
  status : ParseStatus
  consumed : Nat
  main : MainParser

namespace MainCall

variable {code : MainParserCode} {main : MainParser} {input : Octets}
  {outcome : MainOutcome}

/-- A call on the input returns. -/
def Returns (code : MainParserCode) (main : MainParser) (input : Octets)
    (outcome : MainOutcome) : Prop :=
  Reaches (step code) (start main input)
    ⟨outcome.main, input, .returned outcome.status outcome.consumed⟩

/-- One call for each chunk returns; each is given what the call before left
unconsumed and then the chunk. -/
inductive Feeds (code : MainParserCode) :
    MainParser → Octets → List Octets → MainOutcome → Prop where
  | last {main : MainParser} {unread chunk : Octets} {outcome : MainOutcome}
      (h : Returns code main (unread ++ chunk) outcome) :
      Feeds code main unread [chunk] outcome
  | next {main : MainParser} {unread chunk : Octets} {chunks : List Octets}
      {first outcome : MainOutcome}
      (h : Returns code main (unread ++ chunk) first)
      (hrest : Feeds code first.main
        ((unread ++ chunk).drop first.consumed) chunks outcome) :
      Feeds code main unread (chunk :: chunks) outcome

theorem Returns.unique {outcome' : MainOutcome}
    (h : Returns code main input outcome)
    (h' : Returns code main input outcome') : outcome = outcome' := by
  have hfixed : ∀ outcome : MainOutcome, step code
      ⟨outcome.main, input, .returned outcome.status outcome.consumed⟩ = .ok
        ⟨outcome.main, input, .returned outcome.status outcome.consumed⟩ :=
    fun _ => rfl
  have heq := Reaches.eq_of_fixed (hfixed outcome')
    (Reaches.of_fixed (hfixed outcome) h h')
  obtain ⟨status, consumed, main⟩ := outcome
  obtain ⟨status', consumed', main'⟩ := outcome'
  obtain ⟨hmain, _, hpoint⟩ := MainCall.mk.inj heq
  obtain ⟨hstatus, hconsumed⟩ := MainPoint.returned.inj hpoint
  exact MainOutcome.mk.injEq _ _ _ _ _ _ |>.mpr
    ⟨hstatus, hconsumed, hmain⟩

/-- What the class keeps of the result of a message's parser. -/
def settled (main : MainParser) (reader : IndexedReader) (parse : ParseCall)
    (status : ParseStatus) : MainParser :=
  let main := main.setParser reader.2 parse.parser
  if status = .complete then
    { main with hasMessage := true, activeParser := reader.2 }
  else main

theorem settle_last (call : MainCall) (reader : IndexedReader)
    (parse : ParseCall) (status : ParseStatus) :
    call.settle reader [] parse status =
      ⟨settled call.main reader parse status, call.input,
        .returned status parse.totalConsumed⟩ := by
  cases status <;> rfl

section Parsing

variable {reader : IndexedReader} {parse : ParseCall} {status : ParseStatus}
  (hdispatch : (start main input).dispatch code =
    .ok ((start main input).parseWith reader []))

include hdispatch

theorem reaches_parsing
    (h : Reaches (ParseCall.step reader.1.stages)
      (.start (main.parsers reader.2) input) parse) :
    Reaches (step code) (start main input)
      ⟨main, input, .parsing reader [] parse⟩ := by
  let parsing (parse : ParseCall) : MainCall :=
    ⟨main, input, .parsing reader [] parse⟩
  have hstep : ∀ p q, ParseCall.step reader.1.stages p = .ok q →
      q = p ∨ step code (parsing p) = .ok (parsing q) := by
    intro p q hstep
    cases hpoint : p.point with
    | returned status =>
        rw [ParseCall.step_returned hpoint] at hstep
        exact Or.inl (Except.ok.inj hstep).symm
    | dispatch | scanning _ | scanningElement _ =>
        right
        simp only [parsing, step, hpoint, hstep, Except.map]
        rfl
  exact Reaches.head hdispatch (Reaches.map parsing hstep h)

/-- The call returns what the parser of the message returns. -/
theorem returns_of_parse
    (h : Reaches (ParseCall.step reader.1.stages)
      (.start (main.parsers reader.2) input) parse)
    (hstatus : parse.point = .returned status) :
    Returns code main input
      ⟨status, parse.totalConsumed, settled main reader parse status⟩ := by
  refine (reaches_parsing hdispatch h).trans (Reaches.single ?_)
  simp only [step, hstatus, settle_last]

/-- It does not return before the parser of the message has. -/
theorem parse_of_returns (h : Returns code main input outcome) :
    ∃ parse, Reaches (ParseCall.step reader.1.stages)
        (.start (main.parsers reader.2) input) parse ∧
      parse.point = .returned outcome.status ∧
      outcome.consumed = parse.totalConsumed ∧
      outcome.main = settled main reader parse outcome.status := by
  have hprogress : ∀ call, Reaches (step code) (start main input) call →
      call = start main input ∨
      (∃ parse, Reaches (ParseCall.step reader.1.stages)
          (.start (main.parsers reader.2) input) parse ∧
        call = ⟨main, input, .parsing reader [] parse⟩) ∨
      ∃ parse status, Reaches (ParseCall.step reader.1.stages)
          (.start (main.parsers reader.2) input) parse ∧
        parse.point = .returned status ∧
        call = ⟨settled main reader parse status, input,
          .returned status parse.totalConsumed⟩ := by
    intro call hcall
    induction hcall with
    | refl => exact Or.inl rfl
    | tail _ hstep ih =>
        rcases ih with rfl | ⟨parse, hparse, rfl⟩ |
          ⟨parse, status, hparse, hstatus, rfl⟩
        · obtain rfl := Except.ok.inj (hdispatch.symm.trans hstep)
          exact Or.inr (Or.inl ⟨_, Reaches.refl _, rfl⟩)
        · rw [step] at hstep
          dsimp only at hstep
          split at hstep
          · rename_i status hstatus
            rw [settle_last] at hstep
            obtain rfl := Except.ok.inj hstep
            exact Or.inr (Or.inr ⟨parse, status, hparse, hstatus, rfl⟩)
          · obtain ⟨parse', hparse', rfl⟩ := map_eq_ok hstep
            exact Or.inr (Or.inl
              ⟨parse', hparse.trans (Reaches.single hparse'), rfl⟩)
        · obtain rfl := Except.ok.inj hstep
          exact Or.inr (Or.inr ⟨parse, status, hparse, hstatus, rfl⟩)
  rcases hprogress _ h with heq | ⟨_, _, heq⟩ |
    ⟨parse, status, hparse, hstatus, heq⟩
  · exact MainPoint.noConfusion (congrArg point heq)
  · exact MainPoint.noConfusion (congrArg point heq)
  · obtain ⟨hstatus', hconsumed⟩ :=
      MainPoint.returned.inj (congrArg point heq)
    rw [hstatus', hconsumed]
    exact ⟨parse, hparse, hstatus, rfl, congrArg MainCall.main heq⟩

end Parsing

section Compare

variable {branches : List LookaheadCase}

/-- The chain answers that there is an error or goes to a branch that fits. -/
theorem compare_cases {call next : MainCall}
    (h : call.compare branches = .ok next) :
    next = call.goto (.returned .error 0) ∨ ∃ branch ∈ branches,
      memcmpEqual call.input branch.array branch.len = .ok true ∧
        next = call.parseWith branch.reader [] := by
  induction branches with
  | nil => exact Or.inl (Except.ok.inj h).symm
  | cons branch branches ih =>
      rw [compare] at h
      split at h
      · contradiction
      · rename_i hequal
        exact Or.inr ⟨branch, List.mem_cons_self, hequal,
          (Except.ok.inj h).symm⟩
      · refine (ih h).imp_right ?_
        rintro ⟨other, hother, hcompared⟩
        exact ⟨other, List.mem_cons_of_mem branch hother, hcompared⟩

theorem compare_skips {call : MainCall} {before after : List LookaheadCase}
    (h : ∀ branch ∈ before,
      memcmpEqual call.input branch.array branch.len = .ok false) :
    call.compare (before ++ after) = call.compare after := by
  induction before with
  | nil => rfl
  | cons branch before ih =>
      rw [List.forall_mem_cons] at h
      rw [List.cons_append, compare, h.1]
      exact ih h.2

variable {len : Nat}
  (hlookup : code.states.lookup main.currentState =
    some (.lookahead len branches))

include hlookup

/-- Before there are bytes enough a call does nothing. -/
theorem returns_short (h : input.length < len) :
    Returns code main input ⟨.needMoreData, 0, main⟩ := by
  refine Reaches.single ?_
  simp only [step, start, dispatch, hlookup, h, if_true]
  rfl

theorem dispatch_long (h : len ≤ input.length) :
    (start main input).dispatch code =
      (start main input).compare branches := by
  simp only [start, dispatch, hlookup, Nat.not_lt.mpr h, if_false]

/-- What a call in a state with a lookahead comes to. -/
theorem returns_cases (h : Returns code main input outcome) :
    outcome.main = main ∧ outcome.status ≠ .complete ∨
      ∃ branch ∈ branches,
        memcmpEqual input branch.array branch.len = .ok true ∧
          ∃ parse, outcome.main =
            settled main branch.reader parse outcome.status := by
  by_cases hlen : input.length < len
  · rw [h.unique (returns_short hlookup hlen)]
    exact Or.inl ⟨rfl, ParseStatus.noConfusion⟩
  · have hdispatch := dispatch_long hlookup (Nat.le_of_not_lt hlen)
    cases hnext : (start main input).compare branches with
    | error fault =>
        have hfault : step code (start main input) = .error fault :=
          hdispatch.trans hnext
        rcases Relation.ReflTransGen.cases_head h with heq | ⟨_, hstep, _⟩
        · exact MainPoint.noConfusion (congrArg point heq)
        · rw [hfault] at hstep
          contradiction
    | ok next =>
        rcases compare_cases hnext with rfl | ⟨branch, hmem, hequal, rfl⟩
        · have herror : Returns code main input ⟨.error, 0, main⟩ :=
            Reaches.single (hdispatch.trans hnext)
          rw [h.unique herror]
          exact Or.inl ⟨rfl, ParseStatus.noConfusion⟩
        · obtain ⟨parse, _, _, _, hmain⟩ :=
            parse_of_returns (hdispatch.trans hnext) h
          exact Or.inr ⟨branch, hmem, hequal, parse, hmain⟩

theorem currentState_of_returns (h : Returns code main input outcome) :
    outcome.main.currentState = main.currentState := by
  rcases returns_cases hlookup h with ⟨hmain, _⟩ | ⟨_, _, _, parse, hmain⟩
  · rw [hmain]
  · rw [hmain, settled]
    split <;> rfl

/-- Where the last of several calls completes a message, it was given bytes
that fit the branch of the message. -/
theorem fits_of_feeds {unread : Octets} {chunks : List Octets}
    (h : Feeds code main unread chunks outcome)
    (hcomplete : outcome.status = .complete) :
    ∃ k, ∃ branch ∈ branches,
      outcome.main.activeParser = branch.reader.2 ∧
        memcmpEqual ((unread ++ chunks.flatten).drop k) branch.array
          branch.len = .ok true := by
  induction h with
  | @last main unread chunk outcome hreturns =>
      rcases returns_cases hlookup hreturns with ⟨_, hno⟩ |
        ⟨branch, hmem, hequal, parse, hmain⟩
      · exact absurd hcomplete hno
      · refine ⟨0, branch, hmem, ?_, ?_⟩
        · rw [hmain, settled, if_pos hcomplete]
        · simpa using hequal
  | @next main unread chunk chunks first outcome hreturns _ ih =>
      have hstate := currentState_of_returns hlookup hreturns
      obtain ⟨k, branch, hmem, hactive, hequal⟩ :=
        ih (by rw [hstate]; exact hlookup) hcomplete
      rw [drop_append_eq, List.drop_drop, List.append_assoc] at hequal
      exact ⟨_, branch, hmem, hactive, hequal⟩

end Compare

end MainCall

namespace ParseCall

theorem reaches_behind {stages : List ParseStage} {n : Nat}
    {call last : ParseCall} (h : Reaches (step stages) (call.behind n) last) :
    ∃ call', Reaches (step stages) call call' ∧ last = call'.behind n := by
  induction h with
  | refl => exact ⟨call, Reaches.refl call, rfl⟩
  | tail _ hstep ih =>
      obtain ⟨call', hcall', rfl⟩ := ih
      rw [step_behind] at hstep
      obtain ⟨next, hnext, rfl⟩ := map_eq_ok hstep
      exact ⟨next, hcall'.trans (Reaches.single hnext), rfl⟩

end ParseCall

namespace MessageReader

variable {reader : MessageReader} {octets bytes : Octets}

/-- The first turn of a message's parser that starts with a static piece. -/
theorem StartsWith.step_start (h : reader.StartsWith octets)
    (hsurvives : Survives octets) (hstarts : octets <+: bytes) :
    ParseCall.step reader.stages (.start .reset bytes) =
      .ok ⟨MessageParser.reset.nextStage, bytes.drop octets.length,
        octets.length, .dispatch⟩ := by
  obtain ⟨array, rest, harray, hstages⟩ := h.stages
  obtain rfl := Option.some.inj
    ((charArray_of_survives hsurvives).symm.trans harray)
  have hequal := SendCall.memcmpEqual_append octets [0] bytes
  rw [decide_eq_true hstarts] at hequal
  simp only [ParseCall.step, ParseCall.start, ParseCall.dispatch,
    MessageParser.reset, hstages, List.drop_zero, ParseCall.atCase,
    ParseCall.matchStatic, Nat.not_lt.mpr hstarts.length_le, if_false, hequal,
    Except.map, Bool.false_eq_true, if_true]
  simp [ParseCall.consume, ParseCall.modify]

/-- A call that is given the start of the message takes at least that. -/
theorem StartsWith.le_totalConsumed (h : reader.StartsWith octets)
    (hsurvives : Survives octets) (hstarts : octets <+: bytes)
    {parse : ParseCall} {status : ParseStatus}
    (hparse : Reaches (ParseCall.step reader.stages) (.start .reset bytes)
      parse) (hstatus : parse.point = .returned status) :
    octets.length ≤ parse.totalConsumed := by
  rcases Relation.ReflTransGen.cases_head hparse with rfl | ⟨next, hnext, hrest⟩
  · exact ParsePoint.noConfusion hstatus
  · rw [h.step_start hsurvives hstarts] at hnext
    obtain rfl := Except.ok.inj hnext
    let taken : ParseCall := ⟨MessageParser.reset.nextStage,
      bytes.drop octets.length, 0, .dispatch⟩
    have htaken : Reaches (ParseCall.step reader.stages)
        (taken.behind octets.length) parse := hrest
    obtain ⟨call, _, rfl⟩ := ParseCall.reaches_behind htaken
    exact Nat.le_add_right _ _

/-- The literal of the first piece of a message that is read is what was
printed. -/
theorem Encodes.survives {fields : List (String × FieldData)}
    (h : reader.Encodes bytes fields) (hstart : reader.StartsWith octets) :
    Survives octets := by
  obtain ⟨⟨octets', hstart', hstarts⟩, call, hparse, hpoint, _⟩ := h
  obtain rfl := hstart.unique hstart'
  obtain ⟨array, rest, harray, hstages⟩ := hstart.stages
  have hstep : ParseCall.step reader.stages (.start .reset bytes) =
      (ParseCall.start .reset bytes).matchStatic octets.length array
        MessageParser.nextStage := by
    simp only [ParseCall.step, ParseCall.start, ParseCall.dispatch,
      MessageParser.reset, hstages, List.drop_zero, ParseCall.atCase,
      Bool.false_eq_true, if_false]
  have hroom : ¬ (ParseCall.start .reset bytes).input.length <
      octets.length := Nat.not_lt.mpr hstarts.length_le
  have htake : bytes.take octets.length = octets :=
    (List.prefix_iff_eq_take.mp hstarts).symm
  rcases Relation.ReflTransGen.cases_head hparse with rfl | ⟨next, hnext, hrest⟩
  · exact ParsePoint.noConfusion hpoint
  · rw [hstep, ParseCall.matchStatic, if_neg hroom] at hnext
    obtain ⟨equal, hequal, rfl⟩ := map_eq_ok hnext
    rw [memcmpEqual] at hequal
    split at hequal
    · contradiction
    · rename_i hlength
      have htrue : equal = true := by
        by_contra hfalse
        rw [Bool.not_eq_true] at hfalse
        have herror : ((ParseCall.start .reset bytes).finish .error).point =
            .returned .error := rfl
        rw [if_neg (by simp [hfalse])] at hrest
        rw [Reaches.eq_of_fixed (ParseCall.step_returned herror) hrest]
          at hpoint
        exact absurd hpoint (by simp [herror])
      have heq := Except.ok.inj hequal
      rw [htrue, beq_iff_eq] at heq
      exact survives_of_charArray harray (Nat.le_of_not_lt hlength)
        (heq.symm.trans htake)

end MessageReader

namespace MainCall

variable {code : MainParserCode} {main : MainParser} {own : IndexedReader}
  {chunks : List Octets} {fields : List (String × FieldData)}

/-- The last of the calls completes the message, with these fields. -/
def EndsWith (code : MainParserCode) (main : MainParser)
    (chunks : List Octets) (reader : IndexedReader)
    (fields : List (String × FieldData)) : Prop :=
  ∃ outcome, Feeds code main [] chunks outcome ∧
    outcome.status = .complete ∧ outcome.main.activeParser = reader.2 ∧
    (outcome.main.parsers reader.2).takeData reader.1.info.data
      reader.1.info.actions = .ok fields

/-- The first call that is given as many bytes as the longest static piece of
the state has is the last, and there is one. -/
def GivenAtOnce (readers : List IndexedReader) (chunks : List Octets) : Prop :=
  let len := minLen (readers.map fun reader =>
    getLookaheadPrefix reader.1.info)
  chunks.dropLast.flatten.length < len ∧ len ≤ chunks.flatten.length

/-- While the bytes are too few they are given again. -/
theorem feeds_of_returns {branches : List LookaheadCase} {len : Nat}
    (hlookup : code.states.lookup main.currentState =
      some (.lookahead len branches)) {outcome : MainOutcome} {unread : Octets}
    (hne : chunks ≠ [])
    (hshort : (unread ++ chunks.dropLast.flatten).length < len)
    (h : Returns code main (unread ++ chunks.flatten) outcome) :
    Feeds code main unread chunks outcome := by
  induction chunks generalizing unread with
  | nil => contradiction
  | cons chunk chunks ih =>
      cases chunks with
      | nil =>
          rw [List.flatten_singleton] at h
          exact .last h
      | cons second chunks =>
          rw [List.dropLast_cons_of_ne_nil (List.cons_ne_nil _ _),
            List.flatten_cons, ← List.append_assoc] at hshort
          rw [List.flatten_cons, ← List.append_assoc] at h
          have hfew : (unread ++ chunk).length < len := by
            rw [List.length_append] at hshort
            omega
          exact .next (returns_short hlookup hfew)
            (ih (List.cons_ne_nil _ _) hshort h)

section Lookahead

variable {readers before after : List IndexedReader}
  {branches : List LookaheadCase} {octets : Octets}

theorem lookaheadCase_eq {reader : IndexedReader} {branch : LookaheadCase}
    (h : lookaheadCase reader = some branch)
    (hstart : reader.1.StartsWith octets) :
    constant octets = some branch.array ∧ branch.len = octets.length := by
  rw [lookaheadCase, getLookaheadPrefix_of_startsWith hstart] at h
  obtain ⟨array, harray, h⟩ := Option.bind_eq_some_iff.mp h
  obtain rfl := Option.some.inj h
  exact ⟨harray, rfl⟩

theorem reader_of_lookaheadCase {reader : IndexedReader}
    {branch : LookaheadCase} (h : lookaheadCase reader = some branch) :
    branch.reader = reader := by
  obtain ⟨array, _, h⟩ := Option.bind_eq_some_iff.mp h
  obtain rfl := Option.some.inj h
  rfl

/-- A branch whose literal survives fits the bytes that start with it. -/
theorem memcmpEqual_lookaheadCase {reader : IndexedReader}
    {branch : LookaheadCase} (h : lookaheadCase reader = some branch)
    (hstart : reader.1.StartsWith octets) (hsurvives : Survives octets)
    (input : Octets) :
    memcmpEqual input branch.array branch.len =
      .ok (decide (octets <+: input)) := by
  obtain ⟨harray, hlen⟩ := lookaheadCase_eq h hstart
  obtain heq := Option.some.inj
    ((charArray_of_survives hsurvives).symm.trans harray)
  rw [hlen, ← heq]
  exact SendCall.memcmpEqual_append octets [0] input

/-- Bytes that start as the message does are given to its parser. -/
theorem compare_own {input : Octets}
    (hbranches : (before ++ own :: after).mapM lookaheadCase = some branches)
    (hbefore : ∀ reader ∈ before, ∃ octets, reader.1.StartsWith octets ∧
      Survives octets ∧ ¬ octets <+: input)
    (hstart : own.1.StartsWith octets) (hsurvives : Survives octets)
    (hstarts : octets <+: input) :
    (start main input).compare branches =
      .ok ((start main input).parseWith own []) := by
  obtain ⟨earlier, branch, later, hearlier, hown, _, rfl⟩ :=
    MapM.append_cons hbranches
  have hskips : ∀ other ∈ earlier,
      memcmpEqual input other.array other.len = .ok false := by
    intro other hother
    obtain ⟨reader, hreader, hcase⟩ := MapM.exists_of_mem hearlier hother
    obtain ⟨s, hs, hs', hno⟩ := hbefore reader hreader
    rw [memcmpEqual_lookaheadCase hcase hs hs', decide_eq_false hno]
  have hequal := memcmpEqual_lookaheadCase hown hstart hsurvives input
  rw [decide_eq_true hstarts] at hequal
  have hreader := reader_of_lookaheadCase hown
  rw [compare_skips (by exact hskips), compare, start, hequal, hreader]

/-- If the calls go on after one that had bytes enough, the last of them is
given bytes that start as the message does. -/
theorem short_or_recurs {len : Nat}
    (hlookup : code.states.lookup main.currentState =
      some (.lookahead len branches))
    (hbranches : (before ++ own :: after).mapM lookaheadCase = some branches)
    (hplaces : ∀ reader ∈ before ++ own :: after, reader.2 = own.2 →
      reader = own)
    (hreset : main.parsers own.2 = .reset)
    (hstart : own.1.StartsWith octets) (hsurvives : Survives octets)
    (hle : octets.length ≤ len) (hne : octets ≠ []) {bytes : Octets}
    (hbefore : ∀ reader ∈ before, ∃ s, reader.1.StartsWith s ∧ Survives s ∧
      s.length ≤ len ∧ ¬ s <+: bytes)
    (hstarts : octets <+: bytes) {unread : Octets} {outcome : MainOutcome}
    (h : Feeds code main unread chunks outcome)
    (hbytes : unread ++ chunks.flatten = bytes) (hunread : unread.length < len)
    (hcomplete : outcome.status = .complete)
    (hactive : outcome.main.activeParser = own.2) :
    (unread ++ chunks.dropLast.flatten).length < len ∧ len ≤ bytes.length ∨
      ∃ k, 0 < k ∧ octets <+: bytes.drop k := by
  induction h with
  | last hreturns =>
      rw [List.dropLast_singleton, List.flatten_nil, List.append_nil]
      rw [List.flatten_singleton] at hbytes
      refine Or.inl ⟨hunread, Nat.le_of_not_lt fun hfew => ?_⟩
      rw [← hbytes] at hfew
      rw [hreturns.unique (returns_short hlookup hfew)] at hcomplete
      contradiction
  | @next main unread chunk chunks first outcome hreturns hrest ih =>
      rw [List.flatten_cons, ← List.append_assoc] at hbytes
      have hchunks : chunks ≠ [] := by
        rintro rfl
        cases hrest
      rw [List.dropLast_cons_of_ne_nil hchunks, List.flatten_cons,
        ← List.append_assoc]
      by_cases hfew : (unread ++ chunk).length < len
      · have hwaits := hreturns.unique (returns_short hlookup hfew)
        subst hwaits
        exact ih hlookup hreset hbytes hfew hcomplete hactive
      · right
        have hgiven : ∀ s : Octets, s.length ≤ len →
            (s <+: bytes ↔ s <+: unread ++ chunk) := by
          intro s hs
          rw [← hbytes]
          constructor
          · exact fun hprefix => List.prefix_of_prefix_length_le hprefix
              (List.prefix_append _ _) (by omega)
          · exact fun hprefix => hprefix.trans (List.prefix_append _ _)
        have hown := (hgiven octets hle).mp hstarts
        have hdispatch := (dispatch_long hlookup (Nat.le_of_not_lt hfew)).trans
          (compare_own hbranches (fun reader hreader => by
            obtain ⟨s, hs, hs', hlength, hno⟩ := hbefore reader hreader
            exact ⟨s, hs, hs', fun hprefix =>
              hno ((hgiven s hlength).mpr hprefix)⟩) hstart hsurvives hown)
        obtain ⟨parse, hparse, hstatus, hconsumed, _⟩ :=
          parse_of_returns hdispatch hreturns
        rw [hreset] at hparse
        have hpositive : 0 < first.consumed := by
          have htaken :=
            hstart.le_totalConsumed hsurvives hown hparse hstatus
          have hsome := List.length_pos_of_ne_nil hne
          omega
        have hstate := currentState_of_returns hlookup hreturns
        obtain ⟨k, branch, hmem, hbranch, hequal⟩ :=
          fits_of_feeds (by rw [hstate]; exact hlookup) hrest hcomplete
        obtain ⟨reader, hreader, hcase⟩ := MapM.exists_of_mem hbranches hmem
        obtain rfl : reader = own := by
          refine hplaces reader hreader ?_
          rw [← reader_of_lookaheadCase hcase, ← hbranch, hactive]
        rw [memcmpEqual_lookaheadCase hcase hstart hsurvives] at hequal
        have hfits := of_decide_eq_true (Except.ok.inj hequal)
        rw [drop_append_eq, List.drop_drop, hbytes] at hfits
        exact ⟨_, by omega, hfits⟩

end Lookahead

/-- In a state with several messages that their static pieces tell apart, the
class reads a message whose encoding arrives so that the first call with as many
bytes as the longest piece has is the last; only then, unless the piece the
message starts with comes again in it. -/
theorem endsWith_iff_givenAtOnce {info : ProtocolInfo}
    (hcode : generate info = some code) {before after : List IndexedReader}
    (hreaders : parsersForState code.readers main.currentState =
      before ++ own :: after)
    (hseveral : 2 ≤ (before ++ own :: after).length)
    (hdistinct : (before ++ own :: after).Pairwise fun first second =>
      first.1.Distinct second.1)
    (hsurvive : ∀ reader ∈ before, ∀ octets, reader.1.StartsWith octets →
      Survives octets)
    (hreset : ∀ index, main.parsers index = .reset)
    (hencodes : own.1.Encodes chunks.flatten fields) :
    (GivenAtOnce (before ++ own :: after) chunks →
      EndsWith code main chunks own fields) ∧
    ((∀ octets, own.1.StartsWith octets → ∀ k, 0 < k →
        ¬ octets <+: chunks.flatten.drop k) →
      EndsWith code main chunks own fields →
        GivenAtOnce (before ++ own :: after) chunks) := by
  obtain ⟨branches, hbranches, hlookup⟩ :=
    lookup_states hcode hreaders hseveral hdistinct
  obtain ⟨octets, hstart, hstarts⟩ := hencodes.starts
  have hsurvives := hencodes.survives hstart
  have hpieces : ∀ reader ∈ before ++ own :: after, ∀ octets,
      reader.1.StartsWith octets → octets.length ≤ minLen
        ((before ++ own :: after).map fun reader =>
          getLookaheadPrefix reader.1.info) := by
    intro reader hreader octets hoctets
    rw [← getLookaheadPrefix_of_startsWith hoctets]
    exact le_minLen (List.mem_map_of_mem hreader)
  have hbefore : ∀ reader ∈ before, ∃ s, reader.1.StartsWith s ∧
      Survives s ∧ s.length ≤ minLen ((before ++ own :: after).map
        fun reader => getLookaheadPrefix reader.1.info) ∧
      ¬ s <+: chunks.flatten := by
    intro reader hreader
    have hdistinct := (List.pairwise_append.mp hdistinct).2.2 reader hreader
      own List.mem_cons_self
    obtain ⟨s, hs, hno⟩ := hdistinct.mismatch hstart hstarts
    exact ⟨s, hs, hsurvive reader hreader s hs,
      hpieces reader (List.mem_append_left _ hreader) s hs, hno⟩
  have hmem : own ∈ before ++ own :: after :=
    List.mem_append_right _ List.mem_cons_self
  have hne : octets ≠ [] := by
    rw [← getLookaheadPrefix_of_startsWith hstart]
    exact piece_ne_nil hseveral hdistinct _ (List.mem_map_of_mem hmem)
  constructor
  · rintro ⟨hshort, hlong⟩
    obtain ⟨parse, hparse, hcomplete, _, htake⟩ := hencodes.parsed
    have hdispatch := (dispatch_long hlookup hlong).trans
      (compare_own hbranches (fun reader hreader => by
        obtain ⟨s, hs, hs', _, hno⟩ := hbefore reader hreader
        exact ⟨s, hs, hs', hno⟩) hstart hsurvives hstarts)
    rw [← hreset own.2] at hparse
    have hreturns := returns_of_parse hdispatch hparse hcomplete
    have hchunks : chunks ≠ [] := by
      rintro rfl
      exact hne (List.prefix_nil.mp hstarts)
    refine ⟨_, feeds_of_returns hlookup hchunks hshort hreturns, rfl, rfl, ?_⟩
    simpa [settled, MainParser.setParser] using htake
  · rintro honce ⟨outcome, hfeeds, hcomplete, hactive, _⟩
    have hplaces : ∀ reader ∈ before ++ own :: after, reader.2 = own.2 →
        reader = own := by
      rw [← hreaders] at hmem ⊢
      exact fun reader hreader => eq_of_mem_parsersForState hreader hmem
    rcases short_or_recurs hlookup hbranches hplaces (hreset own.2) hstart
      hsurvives (hpieces own hmem octets hstart) hne hbefore hstarts hfeeds
      (List.nil_append _) (minLen_pos _) hcomplete hactive with
      hgiven | ⟨k, hk, hagain⟩
    · exact hgiven
    · exact absurd hagain (honce octets hstart k hk)

open ReceiveCall

/-- The class for a server that reads `BYE` or `HELLO`. -/
def greetingCode : MainParserCode where
  readers := [bye, hello]
  states := [("Open", .lookahead 5
    [⟨[66, 89, 69, 0], 3, (bye, 0)⟩,
      ⟨[72, 69, 76, 76, 79, 0], 5, (hello, 1)⟩])]

theorem generate_greetingCode :
    generate (.collectTransitions (greetingProtocol [bye, hello])) =
      some greetingCode := by
  rfl

theorem endsWith_iff_givenAtOnce_hello :
    EndsWith greetingCode ⟨"Open", false, 0, fun _ => .reset⟩
      [[72, 69], [76, 76, 79]] (hello, 1) [] := by
  have hdistinct : bye.Distinct hello :=
    ⟨_, _, ⟨[], rfl⟩, ⟨[], rfl⟩, by decide, by decide⟩
  have hreaders : parsersForState greetingCode.readers "Open" =
      [(bye, 0)] ++ (hello, 1) :: [] := rfl
  refine (endsWith_iff_givenAtOnce generate_greetingCode hreaders (by decide)
    (by simpa using hdistinct) ?_ (fun _ => rfl) hello_encodes).1
      ⟨by decide, by decide⟩
  intro reader hreader octets hstart
  rw [List.mem_singleton.mp hreader] at hstart
  rw [hstart.unique ⟨[], rfl⟩]
  decide

/-- `BYE` is waited with for a byte that `HELLO` would have. -/
theorem bye_is_not_read :
    ∃ code main, generate (.collectTransitions
        (greetingProtocol [bye, hello])) = some code ∧
      parsersForState code.readers main.currentState =
        [(bye, 0), (hello, 1)] ∧ bye.Distinct hello ∧
      bye.Encodes [66, 89, 69] [] ∧
      ¬ EndsWith code main [[66, 89, 69]] (bye, 0) [] := by
  refine ⟨greetingCode, ⟨"Open", false, 0, fun _ => .reset⟩,
    generate_greetingCode, rfl,
    ⟨_, _, ⟨[], rfl⟩, ⟨[], rfl⟩, by decide, by decide⟩, bye_encodes, ?_⟩
  rintro ⟨outcome, hfeeds, hcomplete, _⟩
  cases hfeeds with
  | last hreturns =>
      rw [hreturns.unique (returns_short rfl (by decide))] at hcomplete
      contradiction
  | next _ hrest => cases hrest

end MainCall

end NetworkProtocolDsl
