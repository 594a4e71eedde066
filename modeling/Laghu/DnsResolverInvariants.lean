import Laghu.DnsResolvers

/-!
What holds of a resolver whenever no call of it is in progress, and between the
native calls of one. A call works on one slot at a time: that slot is split off from
the others, which keep their own invariant.
-/

namespace Laghu.DnsResolvers

open Contract List Bool Option

/-- The tokens of the queries in progress. -/
def activeTokens (queries : List QuerySlot) : List DnsQueryToken :=
  queries.filterMap fun q => if q.active then some q.token else none

/-- The token was handed out before `next`; the counter stops at zero once all
tokens are used. -/
def Issued (next token : BitVec 64) : Prop := token ≠ 0#64 ∧ (next = 0#64 ∨ token < next)

/-- A slot in use waits for its native query; a free one has no channel. -/
structure SlotSound (next : BitVec 64) (q : QuerySlot) : Prop where
  busy : q.active = true → q.nativeDone = false ∧ q.canceling = false ∧
    q.socketCapacityFailed = false ∧ q.channel = some ⟨true⟩ ∧ Issued next q.token
  idle : q.active = false → q.channel = none

structure Sound (s : State) : Prop where
  capacity : s.queries.length = maximumQueryCapacity
  running : s.shuttingDown = false
  limit : s.limits.maximumOutstandingQueries ≤ maximumQueryCapacity
  slots : ∀ q ∈ s.queries, SlotSound s.nextToken q
  tokens : (activeTokens s.queries).Nodup
  counted : s.outstanding = (activeTokens s.queries).length
  bounded : s.outstanding ≤ s.limits.maximumOutstandingQueries

/-- The slots other than `q` are sound, and `pending` says whether the query in `q`
still counts as outstanding. -/
structure Focus (s : State) (before : List QuerySlot) (q : QuerySlot) (after : List QuerySlot)
    (pending : Bool) : Prop where
  queries : s.queries = before ++ q :: after
  capacity : (before ++ q :: after).length = maximumQueryCapacity
  running : s.shuttingDown = false
  limit : s.limits.maximumOutstandingQueries ≤ maximumQueryCapacity
  slots : ∀ r ∈ before ++ after, SlotSound s.nextToken r
  tokens : (activeTokens (before ++ after)).Nodup
  counted : s.outstanding = (activeTokens (before ++ after)).length + pending.toNat
  bounded : s.outstanding ≤ s.limits.maximumOutstandingQueries

section Slots

variable {α : Type*}

theorem split_of_getElem? {l : List α} {i : ℕ} {a : α} (h : l[i]? = some a) :
    ∃ before after, l = before ++ a :: after ∧ before.length = i := by
  obtain ⟨hi, ha⟩ := List.getElem?_eq_some_iff.mp h
  refine ⟨l.take i, l.drop (i + 1), ?_, by simp; omega⟩
  rw [← ha, ← drop_eq_getElem_cons hi, take_append_drop]

theorem modify_middle (before after : List α) (a : α) (f : α → α) :
    (before ++ a :: after).modify before.length f = before ++ f a :: after := by
  induction before with
  | nil => rfl
  | cons b before ih => simp [ih]

theorem activeTokens_append (left right : List QuerySlot) :
    activeTokens (left ++ right) = activeTokens left ++ activeTokens right :=
  filterMap_append ..

theorem activeTokens_of_active (before after : List QuerySlot) {q : QuerySlot}
    (h : q.active = true) : activeTokens (before ++ q :: after) =
      activeTokens before ++ q.token :: activeTokens after := by
  simp [activeTokens, h]

theorem activeTokens_of_idle {before after : List QuerySlot} {q : QuerySlot}
    (h : q.active = false) :
    activeTokens (before ++ q :: after) = activeTokens (before ++ after) := by
  simp [activeTokens, h]

theorem length_activeTokens (queries : List QuerySlot) :
    (activeTokens queries).length = (queries.filter (·.active)).length := by
  induction queries with
  | nil => rfl
  | cons q queries ih =>
    by_cases hact : q.active = true
    · simpa [activeTokens, hact] using ih
    · simpa [activeTokens, hact] using ih

theorem mem_activeTokens {queries : List QuerySlot} {t : DnsQueryToken} :
    t ∈ activeTokens queries ↔ ∃ q ∈ queries, q.active = true ∧ q.token = t := by
  simp only [activeTokens, mem_filterMap]
  constructor
  · rintro ⟨q, hq, h⟩
    split at h
    · rename_i hact
      rw [Option.some.injEq] at h
      exact ⟨q, hq, hact, h⟩
    · cases h
  · rintro ⟨q, hq, hact, rfl⟩
    exact ⟨q, hq, if_pos hact⟩

end Slots

section Focus

variable {s : State} {before after : List QuerySlot} {q : QuerySlot} {i : ℕ}

theorem Sound.focus_of_active (h : Sound s) (hq : s.queries[i]? = some q) (hact : q.active = true) :
    ∃ before after, before.length = i ∧ Focus s before q after true ∧
      q.token ∉ activeTokens (before ++ after) := by
  obtain ⟨before, after, hqueries, rfl⟩ := split_of_getElem? hq
  have htoks := h.tokens
  have hcounted := h.counted
  rw [hqueries, activeTokens_of_active before after hact] at htoks hcounted
  rw [nodup_middle, nodup_cons, ← activeTokens_append] at htoks
  refine ⟨before, after, rfl, ⟨hqueries, hqueries ▸ h.capacity, h.running, h.limit, ?_,
    htoks.2, ?_, h.bounded⟩, htoks.1⟩
  · intro r hr
    exact h.slots r (hqueries ▸ ((sublist_cons_self q after).append_left before).mem hr)
  · rw [hcounted, activeTokens_append]
    simp only [length_append, length_cons, toNat_true]
    omega

theorem Sound.focus_of_idle (h : Sound s) (hq : s.queries[i]? = some q) (hidle : q.active = false) :
    ∃ before after, before.length = i ∧ Focus s before q after false := by
  obtain ⟨before, after, hqueries, rfl⟩ := split_of_getElem? hq
  have hact : activeTokens s.queries = activeTokens (before ++ after) :=
    hqueries ▸ activeTokens_of_idle hidle
  refine ⟨before, after, rfl, hqueries, hqueries ▸ h.capacity, h.running, h.limit, ?_,
    hact ▸ h.tokens, hact ▸ h.counted, h.bounded⟩
  intro r hr
  exact h.slots r (hqueries ▸ ((sublist_cons_self q after).append_left before).mem hr)

theorem Focus.get {pending : Bool} (h : Focus s before q after pending) :
    s.queries[before.length]? = some q := by
  simp [h.queries]

theorem Focus.slotSound {pending : Bool} (h : Focus s before q after pending)
    (hslot : SlotSound s.nextToken q) : ∀ r ∈ s.queries, SlotSound s.nextToken r := by
  intro r hr
  rw [h.queries] at hr
  rcases mem_append.mp hr with hr | hr
  · exact h.slots r (mem_append_left _ hr)
  rcases mem_cons.mp hr with rfl | hr
  · exact hslot
  · exact h.slots r (mem_append_right _ hr)

/-- A slot that is given back. -/
theorem Focus.sound_of_idle (h : Focus s before q after false) (hidle : q.active = false)
    (hchan : q.channel = none) :
    Sound s ∧ activeTokens s.queries = activeTokens (before ++ after) := by
  have hact : activeTokens s.queries = activeTokens (before ++ after) :=
    h.queries ▸ activeTokens_of_idle hidle
  refine ⟨⟨h.queries ▸ h.capacity, h.running, h.limit, h.slotSound ⟨?_, fun _ => hchan⟩,
    hact ▸ h.tokens, hact ▸ h.counted, h.bounded⟩, hact⟩
  intro hbusy
  rw [hidle] at hbusy
  cases hbusy

/-- A slot whose query goes on. -/
theorem Focus.sound_of_active (h : Focus s before q after true) (hact : q.active = true)
    (hslot : SlotSound s.nextToken q) (hfresh : q.token ∉ activeTokens (before ++ after)) :
    Sound s := by
  have htoks := activeTokens_of_active before after hact
  refine ⟨h.queries ▸ h.capacity, h.running, h.limit, h.slotSound hslot, ?_, ?_, h.bounded⟩
  · rw [h.queries, htoks, nodup_middle, nodup_cons, ← activeTokens_append]
    exact ⟨hfresh, h.tokens⟩
  rw [h.counted, h.queries, htoks, activeTokens_append]
  simp only [length_append, length_cons, toNat_true]
  omega

end Focus

/-- What c-ares can change during a call on the channel of the slot `q` that completes
its query `count` times: the sockets, and in the slot the flags and the result. -/
structure Touched (s s' : State) (before after : List QuerySlot) (q q' : QuerySlot)
    (count : ℕ) : Prop where
  queries : s'.queries = before ++ q' :: after
  limits : s'.limits = s.limits
  nextToken : s'.nextToken = s.nextToken
  shuttingDown : s'.shuttingDown = s.shuttingDown
  outstanding : s'.outstanding = s.outstanding - count
  completed : s'.completed = s.completed ++ replicate count q.token
  active : q'.active = q.active
  token : q'.token = q.token
  canceling : q'.canceling = q.canceling
  done : q'.nativeDone = (q.nativeDone || decide (0 < count))

section Natives

variable {s s' : State} {before after : List QuerySlot} {q q' : QuerySlot}

theorem setQuery_middle (hq : s.queries = before ++ q :: after) (r : QuerySlot) :
    (s.setQuery before.length r).queries = before ++ r :: after := by
  change s.queries.set before.length r = _
  rw [hq]
  simp

theorem Touched.refl (hq : s.queries = before ++ q :: after) :
    Touched s s before after q q 0 :=
  ⟨hq, rfl, rfl, rfl, rfl, by simp, rfl, rfl, rfl, by simp⟩

theorem Touched.trans {t : State} {r : QuerySlot} {count count' : ℕ}
    (h : Touched s s' before after q q' count) (h' : Touched s' t before after q' r count') :
    Touched s t before after q r (count + count') where
  queries := h'.queries
  limits := h'.limits.trans h.limits
  nextToken := h'.nextToken.trans h.nextToken
  shuttingDown := h'.shuttingDown.trans h.shuttingDown
  outstanding := by rw [h'.outstanding, h.outstanding, Nat.sub_sub]
  completed := by
    rw [h'.completed, h.completed, h.token, append_assoc, replicate_append_replicate]
  active := h'.active.trans h.active
  token := h'.token.trans h.token
  canceling := h'.canceling.trans h.canceling
  done := by
    rw [h'.done, h.done, Bool.or_assoc, ← decide_or]
    congr 2
    exact propext (by omega)

theorem socketState_touched (hq : s.queries = before ++ q :: after) (descriptor : Int)
    (readable writable : Bool) :
    ∃ q', Touched s (socketState s before.length descriptor readable writable) before after q q' 0 ∧
      q'.channel = q.channel := by
  have h := Touched.refl hq
  unfold socketState
  cases s.sockets.findIdx? (·.descriptor = descriptor) with
  | some index =>
    dsimp only
    split_ifs
    iterate 2 · exact ⟨q, { h with }, rfl⟩
  | none =>
    split_ifs
    · exact ⟨q, h, rfl⟩
    · refine ⟨{ q with socketCapacityFailed := true }, { h with queries := ?_ }, rfl⟩
      rw [hq, modify_middle]
    · exact ⟨q, { h with }, rfl⟩

theorem recordResult_slot (maximum : ℕ) (status : AresStatus) (nodes : List AddrInfoNode)
    (q : QuerySlot) :
    (recordResult maximum status nodes q).active = q.active ∧
      (recordResult maximum status nodes q).token = q.token ∧
      (recordResult maximum status nodes q).canceling = q.canceling ∧
      (recordResult maximum status nodes q).channel = q.channel := by
  unfold recordResult
  split_ifs
  · exact ⟨rfl, rfl, rfl, rfl⟩
  · split <;> exact ⟨rfl, rfl, rfl, rfl⟩

theorem addressComplete_touched (hq : s.queries = before ++ q :: after)
    (hrunning : s.shuttingDown = false) (status : AresStatus) (nodes : List AddrInfoNode) :
    ∃ q', Touched s (addressComplete s before.length status nodes) before after q q' 1 ∧
      q'.channel = q.channel := by
  have hget : s.queries[before.length]? = some q := by simp [hq]
  unfold addressComplete
  rw [hget, hrunning]
  dsimp only
  rw [if_neg Bool.false_ne_true]
  split_ifs
  · exact ⟨_, ⟨setQuery_middle hq _, rfl, rfl, rfl, rfl, rfl, rfl, rfl, rfl, by simp⟩, rfl⟩
  obtain ⟨hact, htoken, hcanceling, hchan⟩ :=
    recordResult_slot s.limits.maximumResultAddresses status nodes q
  exact ⟨_, ⟨setQuery_middle hq _, rfl, rfl, rfl, rfl, rfl, hact, htoken, hcanceling, by simp⟩,
    hchan⟩

theorem callbacks_touched (callbacks : List Callback) (hq : s.queries = before ++ q :: after)
    (hrunning : s.shuttingDown = false) :
    ∃ q', Touched s (callbacks.foldl (Callback.run before.length) s) before after q q'
        (callbacks.countP Callback.completes) ∧ q'.channel = q.channel := by
  induction callbacks generalizing s q with
  | nil => exact ⟨q, .refl hq, rfl⟩
  | cons callback callbacks ih =>
    cases callback with
    | socketState descriptor readable writable =>
      obtain ⟨r, ht, hchan⟩ := socketState_touched hq descriptor readable writable
      obtain ⟨q', ht', hchan'⟩ := ih ht.queries (ht.shuttingDown.trans hrunning)
      have htrans := ht.trans ht'
      rw [Nat.zero_add] at htrans
      rw [countP_cons_of_neg (by simp [Callback.completes])]
      exact ⟨q', htrans, hchan'.trans hchan⟩
    | addressComplete status nodes =>
      obtain ⟨r, ht, hchan⟩ := addressComplete_touched hq hrunning status nodes
      obtain ⟨q', ht', hchan'⟩ := ih ht.queries (ht.shuttingDown.trans hrunning)
      rw [countP_cons_of_pos rfl, Nat.add_comm]
      exact ⟨q', ht.trans ht', hchan'.trans hchan⟩

/-- A function of c-ares finishes the query of its channel at most once, and only one
that is pending. -/
theorem ares_touched {pending must : Bool} {callbacks : List Callback}
    (hq : s.queries = before ++ q :: after) (hrunning : s.shuttingDown = false)
    (hchan : q.channel = some ⟨pending⟩)
    (h : ares s before.length must callbacks = some s') :
    ∃ q' finished, Touched s s' before after q q' (Bool.toNat finished) ∧
      q'.channel = some ⟨pending && !finished⟩ ∧
      (finished = true → pending = true) ∧ (must = true → finished = pending) := by
  have hget : s.queries[before.length]? = some q := by simp [hq]
  unfold ares at h
  rw [hget] at h
  simp only [bind_eq_bind, bind_some, hchan] at h
  split at h
  · rename_i hadmissible
    cases h
    obtain ⟨q', ht, -⟩ := callbacks_touched callbacks hq hrunning
    obtain ⟨hle, hmust⟩ := hadmissible
    have hone : callbacks.countP Callback.completes ≤ 1 := hle.trans (toNat_le pending)
    have hn : callbacks.countP Callback.completes =
        (decide (callbacks.countP Callback.completes = 1)).toNat := by
      by_cases h1 : callbacks.countP Callback.completes = 1
      · simp [h1]
      · simp only [h1, decide_false, toNat_false]
        omega
    refine ⟨{ q' with
        channel := some ⟨pending && !decide (callbacks.countP Callback.completes = 1)⟩ }, _,
      hn ▸ { ht with queries := ?_ }, rfl, ?_, ?_⟩
    · intro hfin
      have h1 := of_decide_eq_true hfin
      cases pending with
      | true => rfl
      | false =>
        rw [h1] at hle
        exact absurd hle (by decide)
    · intro htrue
      rw [hmust htrue]
      cases pending <;> rfl
    · rw [ht.queries, modify_middle]
  · cases h

end Natives

section Calls

variable {s s' : State} {before after : List QuerySlot} {q q' : QuerySlot}
  {pending pending' must : Bool} {callbacks : List Callback} {n : Native}

section

variable (h : Focus s before q after pending)
include h

/-- The slot changes and the others stay as they are. -/
theorem Focus.move (hqueries : s'.queries = before ++ q' :: after) (hlim : s'.limits = s.limits)
    (hn : s'.nextToken = s.nextToken) (hshutting : s'.shuttingDown = s.shuttingDown)
    (hcounted : s'.outstanding + pending.toNat = s.outstanding + pending'.toNat)
    (hbounded : s'.outstanding ≤ s.limits.maximumOutstandingQueries) :
    Focus s' before q' after pending' where
  queries := hqueries
  capacity := by simpa using h.capacity
  running := hshutting.trans h.running
  limit := hlim ▸ h.limit
  slots := fun r hr => hn ▸ h.slots r hr
  tokens := h.tokens
  counted := by
    have := h.counted
    omega
  bounded := hlim ▸ hbounded

theorem Focus.setQuery (r : QuerySlot) :
    Focus (s.setQuery before.length r) before r after pending :=
  h.move (setQuery_middle h.queries r) rfl rfl rfl rfl h.bounded

theorem Focus.ares (hchan : q.channel = some ⟨pending⟩)
    (hares : ares s before.length must callbacks = some s') :
    ∃ q' finished, Touched s s' before after q q' (Bool.toNat finished) ∧
      Focus s' before q' after (pending && !finished) ∧
      q'.channel = some ⟨pending && !finished⟩ ∧ (must = true → finished = pending) := by
  obtain ⟨q', finished, ht, hchan', hpend, hmust⟩ := ares_touched h.queries h.running hchan hares
  have hcounted := h.counted
  have hbounded := h.bounded
  have hout := ht.outstanding
  refine ⟨q', finished, ht, h.move ht.queries ht.limits ht.nextToken
    ht.shuttingDown ?_ (by omega), hchan', hmust⟩
  cases finished with
  | false => simp [hout]
  | true =>
    rw [hpend rfl] at hcounted ⊢
    simp only [Bool.not_true, Bool.and_false, toNat_false]
    omega

end

/-- The slot between the others was given back after the queries in `log` finished. -/
structure Retired (s : State) (log : List DnsQueryToken) (before after : List QuerySlot)
    (s' : State) : Prop where
  sound : Sound s'
  nextToken : s'.nextToken = s.nextToken
  completed : s'.completed = log
  tokens : activeTokens s'.queries = activeTokens (before ++ after)

/-- A slot whose query is finished is given back. -/
theorem retireChannel_spec (h : Focus s before q after false) (hact : q.active = true)
    (hchan : q.channel = some ⟨false⟩) (hretire : retireChannel s before.length n = some s') :
    Retired s s.completed before after s' := by
  have hget := h.get
  unfold retireChannel at hretire
  rw [hget] at hretire
  simp only [bind_eq_bind, bind_some, hchan, isSome_some, if_true] at hretire
  obtain ⟨t, hares, ht⟩ := bind_eq_some_iff.mp hretire
  cases ht
  obtain ⟨q', finished, htouched, hfocus, -, hmust⟩ := h.ares hchan hares
  cases hmust rfl
  have hqueries :
      t.queries.modify before.length finishQuery = before ++ finishQuery q' :: after := by
    rw [hfocus.queries, modify_middle]
  have hidle : (finishQuery q').active = false ∧ (finishQuery q').channel = none := by
    simp [finishQuery, htouched.active, hact]
  have hfinal : Focus { t with queries := t.queries.modify before.length finishQuery } before
      (finishQuery q') after false :=
    hfocus.move hqueries rfl rfl rfl rfl hfocus.bounded
  obtain ⟨hs, htoks⟩ := hfinal.sound_of_idle hidle.1 hidle.2
  exact ⟨hs, htouched.nextToken, htouched.completed.trans (append_nil _), htoks⟩

end Calls

/-- What a call of a resolver does: the query that finished, if any, is the one that is
reported, and no token that was used before is used again. -/
structure Advance (s : State) (sink : Option DnsQueryResult) (s' : State) : Prop where
  sound : Sound s'
  issued : ∀ t, Issued s.nextToken t → Issued s'.nextToken t
  live : ∀ t ∈ activeTokens s'.queries, t ∈ activeTokens s.queries ∨ ¬ Issued s.nextToken t
  completed : s'.completed = s.completed ++ sink.toList.map (·.token)
  reported : ∀ result, sink = some result →
    (result.token ∈ activeTokens s.queries ∨ ¬ Issued s.nextToken result.token) ∧
      Issued s'.nextToken result.token ∧ result.token ∉ activeTokens s'.queries

section Settle

variable {α : Type} {s s' : State} {before after : List QuerySlot} {q : QuerySlot}
  {finished : Bool} {n : Native} {value : Result α} {result : DnsQueryResult}

variable {log : List DnsQueryToken}

/-- The slot after a native call on a pending query, when the queries in `log` had
finished before. -/
structure Waiting (log : List DnsQueryToken) (s : State) (before : List QuerySlot) (q : QuerySlot)
    (after : List QuerySlot) (finished : Bool) : Prop where
  focus : Focus s before q after (!finished)
  completed : s.completed = log ++ replicate finished.toNat q.token
  active : q.active = true
  canceling : q.canceling = false
  done : q.nativeDone = finished
  channel : q.channel = some ⟨!finished⟩
  issued : Issued s.nextToken q.token
  fresh : q.token ∉ activeTokens (before ++ after)

theorem dispatchCompletion_spec (h : Waiting log s before q after true)
    (hdisp : dispatchCompletion s before.length n = some (result, s')) :
    result.token = q.token ∧ Retired s (log ++ [q.token]) before after s' := by
  have hget := h.focus.get
  unfold dispatchCompletion at hdisp
  rw [hget, bind_eq_bind, bind_some] at hdisp
  obtain ⟨t, hretire, ht⟩ := bind_eq_some_iff.mp hdisp
  cases ht
  have hretired := retireChannel_spec h.focus h.active h.channel hretire
  rw [h.completed] at hretired
  exact ⟨rfl, hretired⟩

theorem failSocketCapacity_spec (h : Waiting log s before q after false)
    (hfail : failSocketCapacity s before.length n = some (result, s')) :
    result.token = q.token ∧ Retired s (log ++ [q.token]) before after s' := by
  have hget := h.focus.get
  unfold failSocketCapacity at hfail
  rw [hget, bind_eq_bind, bind_some] at hfail
  obtain ⟨t, hares, hfail⟩ := bind_eq_some_iff.mp hfail
  obtain ⟨u, hretire, hu⟩ := bind_eq_some_iff.mp hfail
  cases hu
  obtain ⟨q', cancelled, ht, hfocus, hchan, hmust⟩ :=
    (h.focus.setQuery { q with canceling := true }).ares h.channel hares
  cases hmust rfl
  obtain ⟨hs, hn, hcompleted, htoks⟩ :=
    retireChannel_spec hfocus (ht.active.trans h.active) hchan hretire
  refine ⟨rfl, hs, hn.trans ht.nextToken, ?_, htoks⟩
  rw [hcompleted, ht.completed]
  change s.completed ++ _ = _
  rw [h.completed, Bool.toNat_false, replicate_zero, append_nil]
  rfl

theorem settle_none (h : Waiting log s before q after finished)
    (hs : settle s before.length n value = some none) : Sound s ∧ s.completed = log := by
  have hget := h.focus.get
  unfold settle at hs
  rw [hget, bind_eq_bind, bind_some] at hs
  split at hs
  · obtain ⟨_, _, ht⟩ := bind_eq_some_iff.mp hs
    cases ht
  rename_i hdone
  by_cases hsocket : q.socketCapacityFailed = true
  · rw [if_pos hsocket] at hs
    obtain ⟨_, _, ht⟩ := bind_eq_some_iff.mp hs
    cases ht
  have hfin : finished = false := h.done ▸ eq_false_iff.mpr hdone
  subst hfin
  refine ⟨h.focus.sound_of_active h.active ⟨fun _ => ?_, fun hidle => ?_⟩ h.fresh,
    h.completed.trans (append_nil _)⟩
  · exact ⟨h.done, h.canceling, eq_false_iff.mpr hsocket, h.channel, h.issued⟩
  · rw [h.active] at hidle
    cases hidle

theorem settle_some (h : Waiting log s before q after finished) {outcome : Outcome α}
    (hs : settle s before.length n value = some (some outcome)) :
    outcome.value = value ∧ (∃ result, outcome.sink = some result ∧ result.token = q.token) ∧
      Retired s (log ++ [q.token]) before after outcome.state := by
  have hget := h.focus.get
  unfold settle at hs
  rw [hget, bind_eq_bind, bind_some] at hs
  split at hs
  · rename_i hdone
    have hfin : finished = true := h.done ▸ hdone
    subst hfin
    obtain ⟨⟨result, t⟩, hdisp, ht⟩ := bind_eq_some_iff.mp hs
    cases ht
    obtain ⟨htoken, hretired⟩ := dispatchCompletion_spec h hdisp
    exact ⟨rfl, ⟨result, rfl, htoken⟩, hretired⟩
  rename_i hdone
  have hfin : finished = false := h.done ▸ eq_false_iff.mpr hdone
  subst hfin
  split at hs
  · obtain ⟨⟨result, t⟩, hfail, ht⟩ := bind_eq_some_iff.mp hs
    cases ht
    obtain ⟨htoken, hretired⟩ := failSocketCapacity_spec h hfail
    exact ⟨rfl, ⟨result, rfl, htoken⟩, hretired⟩
  · cases hs

end Settle

end Laghu.DnsResolvers
