import Laghu.DnsResolverCalls

/-!
What the steps so far say about the queries of each resolver state: those reported to
the sink, and the tokens returned or about to be returned. The queries reported are
those that c-ares completed.
-/

namespace Laghu.DnsResolvers

open  List ObjectTable.Table Returned

/-- The token of state `id` that a call returns. -/
def Returned.tokenOf (id : ℕ) : Returned → Option DnsQueryToken
  | .resolved (some state) (.ok token) => if state = id then some token else none
  | _ => none

namespace Output

def sunkOf (id : ℕ) (o : Output) : List DnsQueryToken :=
  (o.sink.filter fun entry => entry.1 = id).toList.map fun entry => entry.2.token

def returnedOf (id : ℕ) (o : Output) : List DnsQueryToken :=
  (o.returned.bind (Returned.tokenOf id)).toList

end Output

/-- What happened to the queries of one resolver state. -/
structure Ledger where
  sunk : List DnsQueryToken
  returned : List DnsQueryToken
  waiting : List DnsQueryToken

/-- The completions that the sink of state `id` received, in order. -/
def sunkTokens (id : ℕ) (trace : List (Call × Output)) : List DnsQueryToken :=
  trace.flatMap fun event => event.2.sunkOf id

/-- The tokens that calls of `resolve` returned, in order. -/
def returnedTokens (id : ℕ) (trace : List (Call × Output)) : List DnsQueryToken :=
  trace.flatMap fun event => event.2.returnedOf id

def ledger (id : ℕ) (trace : List (Call × Output)) (frames : List Returned) : Ledger where
  sunk := sunkTokens id trace
  returned := returnedTokens id trace
  waiting := frames.filterMap (Returned.tokenOf id)

structure LedgerSound (state : Option State) (l : Ledger) : Prop where
  once : l.sunk.Nodup
  distinct : (l.returned ++ l.waiting).Nodup
  alive : ∀ s, state = some s → Sound s ∧ l.sunk = s.completed ∧
    (∀ t ∈ l.sunk, Issued s.nextToken t ∧ t ∉ activeTokens s.queries) ∧
    ∀ t ∈ l.returned ++ l.waiting, Issued s.nextToken t

theorem ledger_append (id : ℕ) (trace : List (Call × Output)) (frames frames' : List Returned)
    (call : Call) (o : Output) : ledger id (trace ++ [(call, o)]) frames' =
      { sunk := (ledger id trace frames).sunk ++ o.sunkOf id
        returned := (ledger id trace frames).returned ++ o.returnedOf id
        waiting := frames'.filterMap (tokenOf id) } := by
  simp [ledger, sunkTokens, returnedTokens]

section Ledgers

variable {s s' : State} {l : Ledger} {sink : Option DnsQueryResult}

/-- The tokens that wait for the sink are returned later. -/
theorem LedgerSound.permute {state : Option State} (h : LedgerSound state l)
    {returned waiting : List DnsQueryToken}
    (hperm : (returned ++ waiting).Perm (l.returned ++ l.waiting)) :
    LedgerSound state ⟨l.sunk, returned, waiting⟩ where
  once := h.once
  distinct := hperm.nodup_iff.mpr h.distinct
  alive := fun s hs => by
    obtain ⟨hsound, hsame, hsunk, hissued⟩ := h.alive s hs
    exact ⟨hsound, hsame, hsunk, fun t ht => hissued t (hperm.mem_iff.mp ht)⟩

/-- One call of the resolver: `tokens` is what it is going to return. -/
theorem LedgerSound.advance (h : LedgerSound (some s) l) (hadv : Advance s sink s')
    {tokens returned waiting : List DnsQueryToken}
    (hfresh : ∀ t ∈ tokens, ¬ Issued s.nextToken t ∧ Issued s'.nextToken t) (hone : tokens.Nodup)
    (hperm : (returned ++ waiting).Perm (tokens ++ (l.returned ++ l.waiting))) :
    LedgerSound (some s') ⟨l.sunk ++ sink.toList.map (·.token), returned, waiting⟩ := by
  obtain ⟨-, hsame, hsunk, hissued⟩ := h.alive s rfl
  have hlog : l.sunk ++ sink.toList.map (·.token) = s'.completed := by
    rw [hadv.completed, hsame]
  have hk : ∀ t ∈ l.sunk, Issued s'.nextToken t ∧ t ∉ activeTokens s'.queries := by
    intro t ht
    obtain ⟨hold, hidle⟩ := hsunk t ht
    refine ⟨hadv.issued t hold, fun hl => ?_⟩
    rcases hadv.live t hl with hl | hnew
    · exact hidle hl
    · exact hnew hold
  have htoks : ∀ t ∈ returned ++ waiting, Issued s'.nextToken t := by
    intro t ht
    rcases mem_append.mp (hperm.mem_iff.mp ht) with ht | ht
    · exact (hfresh t ht).2
    · exact hadv.issued t (hissued t ht)
  have hdist : (returned ++ waiting).Nodup := by
    refine hperm.nodup_iff.mpr (nodup_append'.mpr ⟨hone, h.distinct, ?_⟩)
    exact fun t ht hmem => (hfresh t ht).1 (hissued t hmem)
  cases sink with
  | none =>
    rw [Option.toList_none, map_nil, append_nil] at hlog ⊢
    refine ⟨h.once, hdist, ?_⟩
    rintro _ ⟨⟩
    exact ⟨hadv.sound, hlog, hk, htoks⟩
  | some result =>
    obtain ⟨horig, hnow, hgone⟩ := hadv.reported result rfl
    have hunseen : result.token ∉ l.sunk := by
      intro hmem
      obtain ⟨hold, hidle⟩ := hsunk _ hmem
      rcases horig with hl | hnew
      · exact hidle hl
      · exact hnew hold
    refine ⟨?_, hdist, ?_⟩
    · exact nodup_append'.mpr ⟨h.once, nodup_singleton _, disjoint_singleton.mpr hunseen⟩
    rintro _ ⟨⟩
    refine ⟨hadv.sound, hlog, fun t ht => ?_, htoks⟩
    rcases mem_append.mp ht with ht | ht
    · exact hk t ht
    · cases mem_singleton.mp ht
      exact ⟨hnow, hgone⟩

end Ledgers

/-- Every state agrees with its ledger, and one that does not exist yet has none. -/
structure LedgersSound (trace : List (Call × Output)) (w : World) : Prop where
  ledgers : ∀ id, LedgerSound (w.states.get? id) (ledger id trace w.frames)
  unborn : ∀ id, w.states.size ≤ id → ledger id trace w.frames = ⟨[], [], []⟩

/-- The step reports nothing about any query. -/
structure Silent (o : Output) : Prop where
  sink : o.sink = none
  returned : ∀ id, o.returnedOf id = []

section Steps

variable {trace : List (Call × Output)} {w w' : World} {c : Call} {o : Output}
  {frames : List Returned}

theorem ledger_silent (h : Silent o) (id : ℕ) :
    ledger id (trace ++ [(c, o)]) w.frames = ledger id trace w.frames := by
  rw [ledger_append id trace w.frames, Output.sunkOf, h.sink, h.returned id]
  simp [ledger]

theorem ledger_unborn {id : ℕ}
    (hold : ledger id trace w.frames = ⟨[], [], []⟩) (hsunk : o.sunkOf id = [])
    (htoks : [] ++ o.returnedOf id ++ frames.filterMap (tokenOf id) = []) :
    ledger id (trace ++ [(c, o)]) frames = ⟨[], [], []⟩ := by
  obtain ⟨hret, hwait⟩ := append_eq_nil_iff.mp htoks
  rw [ledger_append id trace w.frames, hold, hsunk, hret, hwait]
  rfl

/-- A step that starts or finishes no query; states may be deleted in it. -/
theorem LedgersSound.silent (h : LedgersSound trace w) (ho : Silent o)
    (hframes : w'.frames = w.frames) (hsize : w'.states.size = w.states.size)
    (hstates : ∀ id, w'.states.get? id = w.states.get? id ∨ w'.states.get? id = none) :
    LedgersSound (trace ++ [(c, o)]) w' := by
  have hledger : ∀ id, ledger id (trace ++ [(c, o)]) w'.frames = ledger id trace w.frames :=
    fun id => hframes ▸ ledger_silent ho id
  refine ⟨fun id => ?_, fun id hid => ?_⟩
  · have hold := h.ledgers id
    rw [hledger id]
    rcases hstates id with heq | heq
    · rw [heq]
      exact hold
    · rw [heq]
      exact ⟨hold.once, hold.distinct, fun _ h => nomatch h⟩
  · rw [hledger id]
    exact h.unborn id (hsize ▸ hid)

theorem LedgersSound.create (h : LedgersSound trace w) {config : DnsResolverConfig} {s : State}
    (hcre : create config = .ok s) (ho : Silent o) (hframes : w'.frames = w.frames)
    (hstates : w'.states = w.states.push s) : LedgersSound (trace ++ [(c, o)]) w' := by
  have hledger : ∀ id, ledger id (trace ++ [(c, o)]) w'.frames = ledger id trace w.frames :=
    fun id => hframes ▸ ledger_silent ho id
  refine ⟨fun id => ?_, fun id hid => ?_⟩
  · rw [hledger id, hstates]
    by_cases hid : id = w.states.size
    · subst hid
      rw [get?_push_size, h.unborn _ (Nat.le_refl _)]
      refine ⟨nodup_nil, nodup_nil, ?_⟩
      rintro _ ⟨⟩
      obtain ⟨hsound, hnone⟩ := create_sound hcre
      exact ⟨hsound, hnone.symm, by simp, by simp⟩
    · rw [get?_push_ne _ _ hid]
      exact h.ledgers id
  · rw [hledger id]
    rw [hstates, size_push] at hid
    exact h.unborn id (Nat.le_of_succ_le hid)

section

variable {α : Type} (w) (id : ℕ) (outcome : Outcome α) (returned : Returned) (id' : ℕ)

theorem conclude_states :
    (w.conclude id outcome returned).2.states = w.states.set id outcome.state ∧
      (w.conclude id outcome returned).2.handles = w.handles := by
  unfold World.conclude
  cases outcome.sink <;> exact ⟨rfl, rfl⟩

theorem conclude_sunkOf :
    (w.conclude id outcome returned).1.sunkOf id' =
      if id = id' then outcome.sink.toList.map (·.token) else [] := by
  unfold World.conclude Output.sunkOf
  cases outcome.sink with
  | none => simp
  | some result => by_cases hid : id = id' <;> simp [hid, Option.filter]

/-- What a call is going to return is returned now or waits for the sink. -/
theorem conclude_tokens (tokens : List DnsQueryToken) :
    (tokens ++ (w.conclude id outcome returned).1.returnedOf id' ++
        (w.conclude id outcome returned).2.frames.filterMap (tokenOf id')).Perm
      ((returned.tokenOf id').toList ++ (tokens ++ w.frames.filterMap (tokenOf id'))) := by
  unfold World.conclude
  cases outcome.sink with
  | none =>
    rw [append_assoc]
    exact perm_append_comm_assoc ..
  | some result =>
    have hwait : (returned :: w.frames).filterMap (tokenOf id') =
        (returned.tokenOf id').toList ++ w.frames.filterMap (tokenOf id') := by
      rw [filterMap_cons]
      cases returned.tokenOf id' <;> rfl
    change (tokens ++ [] ++ (returned :: w.frames).filterMap (tokenOf id')).Perm _
    rw [append_nil, hwait]
    exact perm_append_comm_assoc ..

end

variable {α : Type} {returned : Returned}

/-- A call of the resolver with state `id`, which returns or waits for the sink. -/
theorem LedgersSound.conclude (h : LedgersSound trace w) {id : ℕ} {s : State}
    (hs : w.states.get? id = some s) {outcome : Outcome α}
    (hadv : Advance s outcome.sink outcome.state)
    (ho : ∀ id', id' ≠ id → returned.tokenOf id' = none)
    (hfresh : ∀ t, returned.tokenOf id = some t →
      ¬ Issued s.nextToken t ∧ Issued outcome.state.nextToken t) :
    LedgersSound (trace ++ [(c, (w.conclude id outcome returned).1)])
      (w.conclude id outcome returned).2 := by
  obtain ⟨hstates, -⟩ := conclude_states w id outcome returned
  refine ⟨fun id' => ?_, fun id' hid' => ?_⟩
  · have hold := h.ledgers id'
    have hperm := conclude_tokens w id outcome returned id' (ledger id' trace w.frames).returned
    rw [hstates, ledger_append id' trace w.frames, conclude_sunkOf]
    by_cases hid : id = id'
    · subst hid
      rw [if_pos rfl, get?_set_self _ hs]
      rw [hs] at hold
      refine hold.advance hadv (fun t ht => hfresh t (by simpa using ht)) ?_ hperm
      cases returned.tokenOf id <;> simp
    · rw [if_neg hid, get?_set_ne _ _ (Ne.symm hid)]
      rw [ho id' (Ne.symm hid)] at hperm
      rw [append_nil]
      exact hold.permute hperm
  · rw [hstates, size_set] at hid'
    have hid : id ≠ id' := fun heq => absurd (lt_size_of_get? hs) (by omega)
    have hperm := conclude_tokens w id outcome returned id' (ledger id' trace w.frames).returned
    have hold := h.unborn id' hid'
    have hwait : w.frames.filterMap (tokenOf id') = [] :=
      congrArg Ledger.waiting hold
    rw [ho id' (Ne.symm hid), hold, hwait] at hperm
    refine ledger_unborn hold ?_ hperm.eq_nil
    rw [conclude_sunkOf, if_neg hid]

theorem LedgersSound.resume (h : LedgersSound trace w)
    (hframes : w.frames = returned :: frames) :
    LedgersSound (trace ++ [(c, { returned := some returned })]) { w with frames := frames } := by
  have hperm : ∀ id, ((ledger id trace w.frames).returned ++
      Output.returnedOf id { returned := some returned } ++
        frames.filterMap (tokenOf id)).Perm
      ((ledger id trace w.frames).returned ++ (ledger id trace w.frames).waiting) := by
    intro id
    have hwait : (ledger id trace w.frames).waiting =
        (returned.tokenOf id).toList ++ frames.filterMap (tokenOf id) := by
      change w.frames.filterMap (tokenOf id) = _
      rw [hframes, filterMap_cons]
      cases returned.tokenOf id <;> rfl
    rw [hwait, append_assoc]
    exact List.Perm.refl _
  refine ⟨fun id => ?_, fun id hid => ?_⟩
  · rw [ledger_append id trace w.frames]
    have hpermuted := (h.ledgers id).permute (hperm id)
    simpa [Output.sunkOf] using hpermuted
  have hold := h.unborn id hid
  have hnil := hperm id
  rw [hold] at hnil
  exact ledger_unborn hold rfl hnil.eq_nil

end Steps

end Laghu.DnsResolvers
