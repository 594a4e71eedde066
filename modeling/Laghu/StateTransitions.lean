import Laghu.Contract
import Laghu.Runs

/-!
State machines driven by a table of permitted transitions, with and without a trace.
The traced machine writes each transition down before it makes it. What it has written
replays its history, and it refuses a request that it has no room to write down.
-/

namespace Laghu.StateTransitions

open Contract List
open Runs (Run)

variable {S R : Type} [DecidableEq S] [DecidableEq R]

structure TransitionRule (S R : Type) where
  current : S
  next : S
  reason : R
  deriving DecidableEq

structure TransitionRecord (S R : Type) where
  sequence : BitVec 64
  current : S
  next : S
  reason : R
  deriving DecidableEq

/-- The inner loop of `create`. -/
def repeats (left : TransitionRule S R) : List (TransitionRule S R) → Bool
  | [] => false
  | right :: rest =>
    if left.current ≠ right.current then repeats left rest
    else if left.next = right.next ∧ left.reason = right.reason then true
    else repeats left rest

def hasDuplicate : List (TransitionRule S R) → Bool
  | [] => false
  | left :: rest => repeats left rest || hasDuplicate rest

variable {rules : List (TransitionRule S R)}

theorem repeats_iff {left : TransitionRule S R} : repeats left rules = true ↔ left ∈ rules := by
  induction rules with
  | nil => simp [repeats]
  | cons right rest ih =>
    obtain ⟨current, next, reason⟩ := left
    obtain ⟨current', next', reason'⟩ := right
    by_cases hcur : current = current'
    · subst hcur
      by_cases hrule : next = next' ∧ reason = reason'
      · simp [repeats, hrule.1, hrule.2]
      · simp [repeats, hrule, ih]
    · simp [repeats, hcur, ih]

theorem hasDuplicate_iff : hasDuplicate rules = true ↔ ¬ rules.Nodup := by
  induction rules with
  | nil => simp [hasDuplicate]
  | cons left rest ih =>
    rw [hasDuplicate, Bool.or_eq_true, repeats_iff, ih, nodup_cons]
    tauto

theorem nodup_of_loop (h : ¬ hasDuplicate rules = true) : rules.Nodup := by
  rw [hasDuplicate_iff, not_not] at h
  exact h

/-- A table that `create` accepted. -/
structure TransitionTable (S R : Type) where
  rules : List (TransitionRule S R)
  nonempty : rules ≠ []
  distinct : rules.Nodup

namespace TransitionTable

def create (rules : List (TransitionRule S R)) : Result (TransitionTable S R) :=
  if hempty : rules = [] then
    .error (coreError .invalidInput "state transition table must not be empty")
  else if hduplicate : hasDuplicate rules = true then
    .error (coreError .invalidInput "state transition table has a duplicate rule")
  else .ok ⟨rules, hempty, nodup_of_loop hduplicate⟩

/-- The loop over the rules. -/
def permitsBy (current next : S) (reason : R) : List (TransitionRule S R) → Bool
  | [] => false
  | rule :: rest =>
    if rule.current = current ∧ rule.next = next ∧ rule.reason = reason then true
    else permitsBy current next reason rest

def permits (table : TransitionTable S R) (current next : S) (reason : R) : Bool :=
  permitsBy current next reason table.rules

end TransitionTable

/-- `storage` is the caller's array of records, of which the first `size` are in use. -/
structure TransitionTrace (S R : Type) where
  storage : List (TransitionRecord S R)
  size : ℕ := 0
  sequence : BitVec 64 := 0#64

namespace TransitionTrace

def records (t : TransitionTrace S R) : List (TransitionRecord S R) := t.storage.take t.size

def sequenceMax : BitVec 64 := BitVec.allOnes 64

def append (t : TransitionTrace S R) (current next : S) (reason : R) :
    Result Unit × TransitionTrace S R :=
  if t.size = t.storage.length then
    (.error (coreError .exhaustion "state transition trace capacity is exhausted"), t)
  else if t.sequence = sequenceMax then
    (.error (coreError .overflow "state transition trace sequence overflow"), t)
  else
    (.ok (), { storage := t.storage.set t.size ⟨t.sequence + 1, current, next, reason⟩
               size := t.size + 1
               sequence := t.sequence + 1 })

end TransitionTrace

def invalidTransitionError : Error :=
  coreError .invalidState "state transition is not permitted"

/-- `StateMachine<State, Reason, false>`. -/
structure StateMachine (S R : Type) where
  current : S
  transitions : TransitionTable S R

def StateMachine.transition (m : StateMachine S R) (next : S) (reason : R) :
    Result Unit × StateMachine S R :=
  if !m.transitions.permits m.current next reason then (.error invalidTransitionError, m)
  else (.ok (), { m with current := next })

/-- `StateMachine<State, Reason, true>`, which owns its trace. -/
structure TracedStateMachine (S R : Type) where
  current : S
  transitions : TransitionTable S R
  trace : TransitionTrace S R

namespace TracedStateMachine

def transition (m : TracedStateMachine S R) (next : S) (reason : R) :
    Result Unit × TracedStateMachine S R :=
  if !m.transitions.permits m.current next reason then (.error invalidTransitionError, m)
  else
    match m.trace.append m.current next reason with
    | (.error e, trace) => (.error e, { m with trace := trace })
    | (.ok (), trace) => (.ok (), { m with current := next, trace := trace })

/-- The machine without its trace. -/
def untraced (m : TracedStateMachine S R) : StateMachine S R := ⟨m.current, m.transitions⟩

def system : Runs.System (TracedStateMachine S R) (S × R) (Result Unit) where
  legal := fun _ _ => True
  step := fun m request => some (m.transition request.1 request.2)

end TracedStateMachine

section

omit [DecidableEq S] [DecidableEq R]

/-- The records lead from one state to the other. -/
def Chained (start : S) : List (TransitionRecord S R) → S → Prop
  | [], last => start = last
  | r :: rest, last => r.current = start ∧ Chained r.next rest last

theorem Chained.append {start middle : S} {records : List (TransitionRecord S R)}
    (h : Chained start records middle) {r : TransitionRecord S R} (hr : r.current = middle) :
    Chained start (records ++ [r]) r.next := by
  induction records generalizing start with
  | nil => exact ⟨hr.trans h.symm, rfl⟩
  | cons first rest ih => exact ⟨h.1, ih h.2⟩

theorem records_append {t : TransitionTrace S R} (hsize : t.size < t.storage.length)
    (r : TransitionRecord S R) (last : BitVec 64) :
    TransitionTrace.records ⟨t.storage.set t.size r, t.size + 1, last⟩ = t.records ++ [r] := by
  simp only [TransitionTrace.records]
  rw [take_add_one, getElem?_set_self hsize, take_set_of_le (Nat.le_refl _)]
  rfl

end

theorem permitsBy_iff {current next : S} {reason : R} :
    TransitionTable.permitsBy current next reason rules = true ↔
      ⟨current, next, reason⟩ ∈ rules := by
  induction rules with
  | nil => simp [TransitionTable.permitsBy]
  | cons rule rest ih =>
    obtain ⟨current', next', reason'⟩ := rule
    by_cases hrule : current' = current ∧ next' = next ∧ reason' = reason
    · simp [TransitionTable.permitsBy, hrule.1, hrule.2.1, hrule.2.2]
    have hne : ¬ (current = current' ∧ next = next' ∧ reason = reason') := by
      rintro ⟨rfl, rfl, rfl⟩
      exact hrule ⟨rfl, rfl, rfl⟩
    simp [TransitionTable.permitsBy, hrule, hne, ih]

/-- A free record and a sequence number are left. -/
def TransitionTrace.Room (t : TransitionTrace S R) : Prop :=
  t.records.length < t.storage.length ∧ t.sequence ≠ TransitionTrace.sequenceMax

section

variable {initial : S} {capacity : ℕ} {sequence : BitVec 64} {table : TransitionTable S R}
  {m m' : TracedStateMachine S R} {next : S} {reason : R}

theorem untraced_accepts_iff : (m.untraced.transition next reason).1 = .ok () ↔
      m.transitions.permits m.current next reason = true := by
  cases hpermits : m.transitions.permits m.current next reason <;>
    simp [StateMachine.transition, TracedStateMachine.untraced, hpermits]

/-- What the trace says about the machine. -/
structure Replays (initial : S) (table : TransitionTable S R) (capacity : ℕ)
    (sequence : BitVec 64) (m : TracedStateMachine S R) : Prop where
  transitions : m.transitions = table
  capacity : m.trace.storage.length = capacity
  size_le : m.trace.size ≤ m.trace.storage.length
  chained : Chained initial m.trace.records m.current
  permitted : ∀ r ∈ m.trace.records, table.permits r.current r.next r.reason = true
  numbered : ∀ i r, m.trace.records[i]? = some r → r.sequence.toNat = sequence.toNat + i + 1
  counted : m.trace.sequence.toNat = sequence.toNat + m.trace.size

theorem Replays.length_records (h : Replays initial table capacity sequence m) :
    m.trace.records.length = m.trace.size := by
  rw [TransitionTrace.records, length_take]
  exact Nat.min_eq_left h.size_le

/-- A request is written down and made, or changes nothing. -/
theorem transition_cases (h : Replays initial table capacity sequence m) (next : S) (reason : R) :
    (m.transitions.permits m.current next reason = true ∧ m.trace.Room ∧
      m.transition next reason = (.ok (), { m with
        current := next
        trace := ⟨m.trace.storage.set m.trace.size ⟨m.trace.sequence + 1, m.current, next, reason⟩,
          m.trace.size + 1, m.trace.sequence + 1⟩ })) ∨
    (¬ (m.transitions.permits m.current next reason = true ∧ m.trace.Room) ∧
      ∃ e, m.transition next reason = (.error e, m)) := by
  cases hpermits : m.transitions.permits m.current next reason with
  | false =>
    refine .inr ⟨fun hall => Bool.noConfusion hall.1, invalidTransitionError, ?_⟩
    simp [TracedStateMachine.transition, hpermits]
  | true =>
    by_cases hf : m.trace.size = m.trace.storage.length
    · refine .inr ⟨fun hall => ?_, coreError .exhaustion
        "state transition trace capacity is exhausted", ?_⟩
      · have hr := hall.2.1
        rw [h.length_records] at hr
        omega
      · simp [TracedStateMachine.transition, hpermits, TransitionTrace.append, hf]
    by_cases hl : m.trace.sequence = TransitionTrace.sequenceMax
    · refine .inr ⟨fun hall => hall.2.2 hl, coreError .overflow
        "state transition trace sequence overflow", ?_⟩
      simp [TracedStateMachine.transition, hpermits, TransitionTrace.append, hf, hl]
    refine .inl ⟨rfl, ⟨?_, hl⟩, ?_⟩
    · rw [h.length_records]
      exact Nat.lt_of_le_of_ne h.size_le hf
    · simp [TracedStateMachine.transition, hpermits, TransitionTrace.append, hf, hl]

theorem toNat_succ (h : sequence ≠ TransitionTrace.sequenceMax) :
    (sequence + 1).toNat = sequence.toNat + 1 := by
  have hmax : TransitionTrace.sequenceMax.toNat = 2 ^ 64 - 1 := by decide
  have hne : sequence.toNat ≠ 2 ^ 64 - 1 := by
    rw [← hmax]
    exact fun heq => h (BitVec.eq_of_toNat_eq heq)
  have hlt := sequence.isLt
  have hone : (1 : BitVec 64).toNat = 1 := rfl
  rw [BitVec.toNat_add, hone]
  omega

/-- The step lemma: a transition keeps the trace a replay of the machine's history. -/
theorem Replays.transition (h : Replays initial table capacity sequence m) (next : S)
    (reason : R) : Replays initial table capacity sequence (m.transition next reason).2 := by
  rcases transition_cases h next reason with ⟨hpermits, hroom, hrun⟩ | ⟨_, e, hrun⟩
  · have hsize : m.trace.size < m.trace.storage.length := by
      rw [← h.length_records]
      exact hroom.1
    have hrecs := records_append hsize ⟨m.trace.sequence + 1, m.current, next, reason⟩
      (m.trace.sequence + 1)
    have hnum : (m.trace.sequence + 1).toNat = sequence.toNat + m.trace.size + 1 := by
      rw [toNat_succ hroom.2, h.counted]
    rw [hrun]
    refine ⟨h.transitions, ?_, ?_, ?_, ?_, ?_, ?_⟩
    · rw [length_set]
      exact h.capacity
    · rw [length_set]
      exact hsize
    · rw [hrecs]
      exact h.chained.append rfl
    · intro r hr
      rw [hrecs, mem_append, mem_singleton] at hr
      rcases hr with hold | hnew
      · exact h.permitted r hold
      · rw [hnew, ← h.transitions]
        exact hpermits
    · intro i r hr
      rw [hrecs] at hr
      rcases Runs.getElem?_append_singleton hr with hold | ⟨hidx, hnew⟩
      · exact h.numbered i r hold
      · rw [hnew, hidx, h.length_records]
        exact hnum
    · omega
  · rw [hrun]
    exact h

theorem run_replays {trace : List ((S × R) × Result Unit)} {storage : List (TransitionRecord S R)}
    (hrun : Run TracedStateMachine.system ⟨initial, table, { storage, sequence }⟩ trace m) :
    Replays initial table storage.length sequence m := by
  apply hrun.invariant
  · intro m request result m' h _ hstep
    have hn : m' = (m.transition request.1 request.2).2 :=
      (congrArg Prod.snd (Option.some.inj hstep)).symm
    rw [hn]
    exact h.transition request.1 request.2
  · exact ⟨rfl, rfl, Nat.zero_le _, rfl, (fun r hr => by cases hr), (fun i r hr => by cases hr),
      rfl⟩

end

/-- A traced machine is the untraced one as long as it can write its transitions down: its
records lead from the initial state to the current one by permitted transitions, numbered
without a gap; a request that it cannot make or cannot write down changes nothing. -/
theorem trace_replays {table : TransitionTable S R}
    (hcreate : TransitionTable.create rules = .ok table) {initial : S}
    {storage : List (TransitionRecord S R)} {sequence : BitVec 64}
    {trace : List ((S × R) × Result Unit)} {m : TracedStateMachine S R}
    (hrun : Run TracedStateMachine.system ⟨initial, table, { storage, sequence }⟩ trace m) :
    Chained initial m.trace.records m.current ∧
      (∀ r ∈ m.trace.records, ⟨r.current, r.next, r.reason⟩ ∈ rules) ∧
      (∀ i r, m.trace.records[i]? = some r → r.sequence.toNat = sequence.toNat + i + 1) ∧
      m.trace.sequence.toNat = sequence.toNat + m.trace.records.length ∧
      ∀ next reason, ((m.transition next reason).1 = .ok () ↔
          (m.untraced.transition next reason).1 = .ok () ∧ m.trace.records.length < storage.length ∧
            m.trace.sequence ≠ TransitionTrace.sequenceMax) ∧
        ((m.transition next reason).1 = .ok () →
          (m.transition next reason).2.untraced = (m.untraced.transition next reason).2) ∧
        ((m.transition next reason).1 ≠ .ok () → (m.transition next reason).2 = m) := by
  have h := run_replays hrun
  have hrules : table.rules = rules := by
    unfold TransitionTable.create at hcreate
    split_ifs at hcreate
    cases hcreate
    rfl
  refine ⟨h.chained, ?_, h.numbered, ?_, ?_⟩
  · intro r hr
    rw [← hrules, ← permitsBy_iff]
    exact h.permitted r hr
  · rw [h.length_records]
    exact h.counted
  intro next reason
  have hstorage := h.capacity
  rcases transition_cases h next reason with ⟨hpermits, hroom, hrun⟩ | ⟨hrefused, e, hrun⟩
  · have haccepts := untraced_accepts_iff.mpr hpermits
    rw [hrun]
    refine ⟨⟨fun _ => ⟨haccepts, hstorage ▸ hroom.1, hroom.2⟩, fun _ => rfl⟩, fun _ => ?_,
      fun hne => absurd rfl hne⟩
    simp [StateMachine.transition, TracedStateMachine.untraced, hpermits]
  · rw [hrun]
    refine ⟨⟨(fun hok => by cases hok), fun hall => ?_⟩, (fun hok => by cases hok), fun _ => rfl⟩
    exact absurd ⟨untraced_accepts_iff.mp hall.1, hstorage.symm ▸ hall.2.1, hall.2.2⟩ hrefused

def sampleRules : List (TransitionRule Bool Unit) := [⟨false, true, ()⟩, ⟨true, false, ()⟩]

theorem sampleRules_nonempty : sampleRules ≠ [] := cons_ne_nil _ _

theorem sampleRules_nodup : sampleRules.Nodup := by decide

def sampleTable : TransitionTable Bool Unit :=
  ⟨sampleRules, sampleRules_nonempty, sampleRules_nodup⟩

/-- There is room for two records. -/
def sampleStorage : List (TransitionRecord Bool Unit) :=
  [⟨0#64, false, false, ()⟩, ⟨0#64, false, false, ()⟩]

def sampleTrace : TransitionTrace Bool Unit :=
  ⟨[⟨8#64, false, true, ()⟩, ⟨9#64, true, false, ()⟩], 2, 9#64⟩

theorem sampleTrace_run :
    Run TracedStateMachine.system ⟨false, sampleTable, ⟨sampleStorage, 0, 7#64⟩⟩
      [((true, ()), .ok ()), ((false, ()), .ok ())] ⟨false, sampleTable, sampleTrace⟩ :=
  .cons trivial rfl <| .cons trivial rfl <| .refl _

/-- The third request is permitted by the table, but there is no record left for it. -/
theorem trace_replays_exhausted : Chained false sampleTrace.records false ∧
      sampleTable.permits false true () = true ∧
      (TracedStateMachine.transition ⟨false, sampleTable, sampleTrace⟩ true ()).2 =
        ⟨false, sampleTable, sampleTrace⟩ := by
  have hcreate : TransitionTable.create sampleRules = .ok sampleTable := rfl
  have hreplays := trace_replays hcreate sampleTrace_run
  exact ⟨hreplays.1, by decide, (hreplays.2.2.2.2 true ()).2.2 (by decide)⟩

end Laghu.StateTransitions
