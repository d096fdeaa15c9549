import CrowDB.ChunkKv.Lifecycle

/-!
# Write fences of a partition's worker

`Recovering`, `Faulted` and `TransferQuiesced` are left by no compare-exchange. They are
left by a plain store: `commit_split`, `complete_local_split_handoff`, `abort_split`, the
child cutover and the transfer catch-up check the word, wait, and then store without
looking again. More holes come from the handle that a split leaves behind, because its
word is not the one the worker reads: it admits mutations while a suspend call drains the
queue, a suspend call through it fences nothing, and a second cutover, which comes through
it, takes the worker from a word that says `Recovering` to one that does not.
-/
namespace CrowDB.ChunkKv
open Lib HandleState List Option WorkerPoint

/-- The lifecycles in which the worker must not append any more. -/
def Stopped (l : PartitionLifecycle) : Prop :=
  l = .recovering ∨ l = .faulted ∨ l = .transferQuiesced

/-- Every plain store of the worker's word finds it as the check before it did; the worker
leaves a word only when no fence is set there; suspend calls come through the handle whose
word the worker reads, and while that word is fenced no mutation passes the second check
of another one. -/
def unraced (s : HandleState) : HandleAction → Bool
  | .advance j .abortStore _ =>
    j != s.home || s.current == .splitPreparing || s.current == .splitFinalizing
  | .advance j .commitStore _ | .advance j .handoffStore _ =>
    j != s.home || s.current == .splitFinalizing
  | .advance j (.mutateRecheck _) _ => j == s.home || s.current != .transferFencing
  | .advance j (.suspendForTransfer _) _ | .advance j .shutdownLoad _
  | .advance j (.shutdownExchange _) _ => j == s.home
  | .work .store => s.worker != .cutoverStore || s.current == .splitPreparing
      || s.current == .splitFinalizing
  | .work (.control true) => match s.worker with
    | .catchingUp => s.current == .prepared
    | .cutover parent _ => parent == s.home || fenceable s.current
    | _ => true
  | _ => true

/-! ## The invariant -/

/-- No mutation is on its way to the worker or in its hands. -/
structure Quiet (s : HandleState) : Prop where
  calls : ∀ c ∈ s.calls, c.2.sending = false
  channel : ∀ r ∈ s.channel, r.isMutation = false
  worker : s.worker.writing = false

lemma Quiet.same {s t : HandleState} (q : Quiet s) (hcalls : t.calls = s.calls)
    (hchannel : t.channel = s.channel) (hworker : t.worker = s.worker) : Quiet t :=
  ⟨hcalls ▸ q.calls, hchannel ▸ q.channel, hworker ▸ q.worker⟩

structure FenceInv (s : HandleState) : Prop where
  counted : s.queuedRequests = s.calls.countP (·.2.holdsSlot)
    + s.channel.countP WorkerRequest.counted + s.worker.inHand
  handles : s.home < s.opened ∧ ∀ j, j ≠ s.home → fenceable (s.word j) = true
  fencing : ∀ c ∈ s.calls, c.2.suspending = true →
    c.1 = s.home ∧ (s.current = .transferFencing ∨ Stopped s.current)
  drained : ∀ c ∈ s.calls, c.2.drained = true → s.current = .transferFencing → Quiet s
  quiesced : s.current = .transferQuiesced → s.worker.appending = false
  fenced : ∀ n, s.fencedAt = some n → s.appended = n ∧ s.worker.appending = false ∧
    (Stopped s.current ∨ s.worker.isFailing = true)

variable {w : WorkerPoint}

lemma WorkerPoint.appending_of_writing (h : w.writing = false) : w.appending = false := by
  cases w <;> simp_all [writing]

lemma Call.suspending_of_drained {c : Call} (h : c.drained = true) : c.suspending = true := by
  cases c <;> simp_all [drained, suspending]

variable {l : PartitionLifecycle}

lemma not_stopped_of_fenceable (h : fenceable l = true) : ¬ Stopped l ∧ l ≠ .transferFencing := by
  cases l <;> simp_all [fenceable, Stopped]

variable {channel : List WorkerRequest}

@[simp] lemma word_setHandle (s : HandleState) (j k : ℕ) (h : Handle) :
    (s.setHandle j h).word k = if k = j then h.lifecycle else s.word k := by
  by_cases hk : k = j
  · simp [word, setHandle, hk]
  · simp [word, setHandle, hk]

@[simp] lemma word_setLifecycle (s : HandleState) (j k : ℕ) :
    (s.setLifecycle j l).word k = if k = j then l else s.word k := word_setHandle ..

lemma current_setLifecycle (s : HandleState) : (s.setLifecycle s.home l).current = l :=
  (word_setLifecycle ..).trans (if_pos rfl)

namespace FenceInv
variable {s : HandleState} {j : ℕ} {c c' : Call}

/-- The order of the calls does not matter. -/
theorem perm {l : List (ℕ × Call)} (h : FenceInv s) (hp : s.calls.Perm l) :
    FenceInv { s with calls := l } where
  counted := by rw [h.counted, hp.countP_eq]
  handles := h.handles
  fencing := fun c hc => h.fencing c (hp.mem_iff.mpr hc)
  drained := fun c hc hd hl =>
    have q := h.drained c (hp.mem_iff.mpr hc) hd hl
    ⟨fun d hd => q.calls d (hp.mem_iff.mpr hd), q.channel, q.worker⟩
  quiesced := h.quiesced
  fenced := h.fenced

/-- The transition and its lock do not matter. -/
theorem metadata {transition : Option SplitTransition} {locked : Bool} (h : FenceInv s) :
    FenceInv { s with transition := transition, locked := locked } where
  counted := h.counted
  handles := h.handles
  fencing := h.fencing
  drained := fun c hc hd hl => (h.drained c hc hd hl).same rfl rfl rfl
  quiesced := h.quiesced
  fenced := h.fenced

/-- A handle changes, its word only if the worker does not read it. -/
theorem setHandle {a : Handle} (h : FenceInv s)
    (hword : j = s.home → a.lifecycle = s.current)
    (hother : j ≠ s.home → fenceable a.lifecycle = true) : FenceInv (s.setHandle j a) := by
  have hcurrent : (s.setHandle j a).current = s.current := by
    rw [current, word_setHandle]
    split
    · next hj => exact hword hj.symm
    · rfl
  refine ⟨h.counted, ⟨h.handles.1, fun k hk => ?_⟩, fun c hc hs => hcurrent ▸ h.fencing c hc hs,
    fun c hc hd hl => (h.drained c hc hd (hcurrent ▸ hl)).same rfl rfl rfl,
    fun hl => h.quiesced (hcurrent ▸ hl), fun n hn => hcurrent ▸ h.fenced n hn⟩
  rw [word_setHandle]
  split
  · next hkj => exact hother (hkj ▸ hk)
  · exact h.handles.2 k hk

/-- A handle changes and keeps its word. -/
theorem rewire {a : Handle} (h : FenceInv s) (ha : a.lifecycle = s.word j) :
    FenceInv (s.setHandle j a) :=
  h.setHandle (fun hj => ha.trans (hj ▸ rfl)) fun hj => ha ▸ h.handles.2 j hj

section
variable (h : FenceInv (s.push j c))
include h

/-- A call goes on without touching a shared word. -/
theorem next (hslot : c'.holdsSlot = c.holdsSlot)
    (hsusp : c'.suspending = true → c.suspending = true)
    (hdrain : c'.drained = true → c.drained = true)
    (hsend : c'.sending = true → c.sending = true ∨ s.current ≠ .transferFencing) :
    FenceInv (s.push j c') where
  counted := by simpa [push, countP_cons, hslot] using h.counted
  handles := h.handles
  fencing := by
    rintro d (_ | ⟨_, hd⟩) hds
    · exact h.fencing (j, c) (.head _) (hsusp hds)
    · exact h.fencing d (.tail _ hd) hds
  drained := by
    have quiet (hl : s.current = .transferFencing) (q : Quiet (s.push j c)) :
        Quiet (s.push j c') := by
      refine ⟨?_, q.channel, q.worker⟩
      rintro d (_ | ⟨_, hd⟩)
      · refine Bool.eq_false_iff.mpr fun hc' => ?_
        have hc := (hsend hc').resolve_right (not_not_intro hl)
        simp [q.calls (j, c) (.head _)] at hc
      · exact q.calls d (.tail _ hd)
    rintro d (_ | ⟨_, hd⟩) hdd hl
    · exact quiet hl (h.drained (j, c) (.head _) (hdrain hdd) hl)
    · exact quiet hl (h.drained d (.tail _ hd) hdd hl)
  quiesced := h.quiesced
  fenced := h.fenced

/-- A call returns; its queue slot has gone to the request it sent, or it has none. -/
theorem leave {queued : ℕ}
    (hq : queued + (if c.holdsSlot then 1 else 0) + s.channel.countP WorkerRequest.counted =
      s.queuedRequests + channel.countP WorkerRequest.counted)
    (hch : ∀ r ∈ channel, r ∈ s.channel ∨ (r.isMutation = true → c.sending = true)) :
    FenceInv { s with queuedRequests := queued, channel := channel } where
  counted := by
    have := h.counted
    simp only [push, countP_cons] at this ⊢
    omega
  handles := h.handles
  fencing := fun d hd => h.fencing d (.tail _ hd)
  drained := by
    intro d hd hdd hl
    have q := h.drained d (.tail _ hd) hdd hl
    refine ⟨fun e he => q.calls e (.tail _ he), fun r hr => ?_, q.worker⟩
    rcases hch r hr with hr | hr
    · exact q.channel r hr
    · have := q.calls (j, c) (.head _)
      exact Bool.eq_false_iff.mpr fun hm => by simp [hr hm] at this
  quiesced := h.quiesced
  fenced := h.fenced

lemma drop (hslot : c.holdsSlot = false) : FenceInv s :=
  show FenceInv { s with queuedRequests := s.queuedRequests, channel := s.channel } from
    h.leave (by simp [hslot]) fun _ => .inl

lemma release (hslot : c.holdsSlot = true) : FenceInv s.releaseAdmission := by
  have hq := h.counted
  refine h.leave ?_ fun _ => .inl
  simp only [push, countP_cons, hslot, if_true] at hq ⊢
  omega

lemma sent {r : WorkerRequest} (hslot : c.holdsSlot = r.counted)
    (hsend : r.isMutation = true → c.sending = true) : FenceInv (s.send r) := by
  refine h.leave ?_ (forall_mem_concat (fun _ => .inl) (.inr hsend))
  simp only [countP_append, countP_singleton, hslot]
  omega

/-- A call reserves one request of the queue. -/
theorem reserve (hslot : c.holdsSlot = false) (hslot' : c'.holdsSlot = true)
    (hsusp : c'.suspending = false) (hsend : c'.sending = false) :
    FenceInv ({ s with queuedRequests := s.queuedRequests + 1 }.push j c') := by
  have hs := h.drop hslot
  refine ⟨?_, hs.handles, ?_, ?_, hs.quiesced, hs.fenced⟩
  · have := hs.counted
    simp only [push, countP_cons, hslot', if_true]
    omega
  · rintro d (_ | ⟨_, hd⟩) hds
    · simp [hsusp] at hds
    · exact hs.fencing d hd hds
  · rintro d (_ | ⟨_, hd⟩) hdd hl
    · simp [Call.suspending_of_drained hdd] at hsusp
    · have q := hs.drained d hd hdd hl
      refine ⟨?_, q.channel, q.worker⟩
      rintro e (_ | ⟨_, he⟩)
      · exact hsend
      · exact q.calls e he

end

section
variable (h : FenceInv s)
include h

/-- A new call, or the next point of one whose removal kept the invariant. -/
theorem enter (hslot : c.holdsSlot = false)
    (hsusp : c.suspending = true →
      j = s.home ∧ (s.current = .transferFencing ∨ Stopped s.current))
    (hdrain : c.drained = true → s.queuedRequests = 0) (hsend : c.sending = false) :
    FenceInv (s.push j c) := by
  refine ⟨?_, h.handles, ?_, ?_, h.quiesced, h.fenced⟩
  · simpa [push, hslot] using h.counted
  · rintro d (_ | ⟨_, hd⟩) hds
    · exact hsusp hds
    · exact h.fencing d hd hds
  · -- an empty counter leaves no call, no request and no worker with a mutation
    have quiet (hq : s.queuedRequests = 0) : Quiet s := by
      have := h.counted
      have hcalls : s.calls.countP (·.2.holdsSlot) = 0 := by omega
      have hchan : s.channel.countP WorkerRequest.counted = 0 := by omega
      refine ⟨fun d hd => ?_, fun r hr => ?_, ?_⟩
      · have := countP_eq_zero.mp hcalls d hd
        cases hc : d.2 <;> simp_all [Call.holdsSlot, Call.sending]
      · have := countP_eq_zero.mp hchan r hr
        cases r <;> simp_all [WorkerRequest.counted, WorkerRequest.isMutation]
      · cases hw : s.worker <;> simp_all [inHand, writing, appending]
    have push (q : Quiet s) : Quiet (s.push j c) := by
      refine ⟨?_, q.channel, q.worker⟩
      rintro e (_ | ⟨_, he⟩)
      · exact hsend
      · exact q.calls e he
    rintro d (_ | ⟨_, hd⟩) hdd hl
    · exact push (quiet (hdrain hdd))
    · exact push (h.drained d hd hdd hl)

/-- The worker's word stops it, whatever it was before. -/
theorem halt (hl : Stopped l) (hw : l = .transferQuiesced → s.worker.appending = false) :
    FenceInv (s.setLifecycle s.home l) := by
  have hcurrent := current_setLifecycle (l := l) s
  have hstop : Stopped (s.setLifecycle s.home l).current := by rwa [hcurrent]
  refine ⟨h.counted, ⟨h.handles.1, fun k hk => ?_⟩,
    fun c hc hs => ⟨(h.fencing c hc hs).1, .inr hstop⟩, fun _ _ _ hf => ?_,
    fun hq => hw (hcurrent ▸ hq), fun n hn => ⟨(h.fenced n hn).1, (h.fenced n hn).2.1, .inl hstop⟩⟩
  · have := h.handles.2 k hk
    rwa [word_setLifecycle, if_neg (show k ≠ s.home from hk)]
  · rw [hf] at hstop
    simp [Stopped] at hstop

lemma none_suspending (hs : fenceable s.current = true) {c : ℕ × Call} (hc : c ∈ s.calls) :
    c.2.suspending = false := by
  obtain ⟨hopen, hfree⟩ := not_stopped_of_fenceable hs
  exact Bool.eq_false_iff.mpr fun hsusp => (h.fencing c hc hsusp).2.elim hfree hopen

/-- With no fence set, the worker's word may become any other, or the worker may turn to
another one. -/
theorem relax {handle : ℕ → Handle} {home opened : ℕ} (hs : fenceable s.current = true)
    (hl : (handle home).lifecycle ≠ .transferQuiesced)
    (hhandles : home < opened ∧ ∀ k, k ≠ home → fenceable (handle k).lifecycle = true) :
    FenceInv { s with handle := handle, home := home, opened := opened } := by
  obtain ⟨hopen, -⟩ := not_stopped_of_fenceable hs
  refine ⟨h.counted, hhandles, fun c hc hc' => ?_, fun c hc hd => ?_, fun hq => absurd hq hl,
    fun n hn => ⟨(h.fenced n hn).1, (h.fenced n hn).2.1,
      .inr ((h.fenced n hn).2.2.resolve_left hopen)⟩⟩
  · simp [h.none_suspending hs hc] at hc'
  · exact absurd (Call.suspending_of_drained hd) (by simp [h.none_suspending hs hc])

/-- A word is set while no fence is set: the worker's, or one that it does not read. -/
theorem setWord (hs : j = s.home → fenceable s.current = true) (hl : fenceable l = true) :
    FenceInv (s.setLifecycle j l) := by
  by_cases hj : j = s.home
  · have hne : l ≠ .transferQuiesced := by
      rintro rfl
      cases hl
    refine h.relax (hs hj) (by simpa [hj] using hne) ⟨h.handles.1, fun k hk => ?_⟩
    simpa [word, hj, hk] using h.handles.2 k hk
  · exact h.setHandle (fun h' => absurd h' hj) fun _ => hl

lemma fence (hw : s.worker.appending = false)
    (hstop : Stopped s.current ∨ s.worker.isFailing = true) : FenceInv s.fence := by
  refine ⟨h.counted, h.handles, h.fencing,
    fun c hc hd hl => (h.drained c hc hd hl).same rfl rfl rfl, h.quiesced, fun n hn => ?_⟩
  cases hf : s.fencedAt with
  | none =>
    simp only [HandleState.fence, hf, none_or, some.injEq] at hn
    exact ⟨hn, hw, hstop⟩
  | some m =>
    simp only [HandleState.fence, hf, some_or, some.injEq] at hn
    exact hn ▸ h.fenced m hf

lemma suspendLost (hj : j = s.home) : FenceInv (suspendLost s j) := by
  subst hj
  unfold ChunkKv.suspendLost
  split
  · next hl => exact h.fence (h.quiesced hl) (.inl (.inr (.inr hl)))
  · exact h

end

/-- The worker may not append behind a drained fence. -/
theorem quiesce (h : FenceInv (s.push s.home .quiesceExchange))
    (hl : s.current = .transferFencing) :
    FenceInv ((s.setLifecycle s.home .transferQuiesced).fence) := by
  have hw := appending_of_writing (h.drained _ (.head _) rfl hl).worker
  have hs := h.drop rfl
  exact (hs.halt (.inr (.inr rfl)) fun _ => hw).fence hw
    (.inl (.inr (.inr (current_setLifecycle s))))

section
variable {w₀ : WorkerPoint} (h : FenceInv s) (hw : s.worker = w₀)
include h hw

/-- The worker goes on; requests it answers leave the counter. -/
theorem worked {queued : ℕ}
    (hq : queued + s.channel.countP WorkerRequest.counted + w₀.inHand =
      s.queuedRequests + channel.countP WorkerRequest.counted + w.inHand)
    (hch : ∀ r ∈ channel, r ∈ s.channel)
    (hwriting : w.writing = true → w₀.writing = true ∨
      (∃ r ∈ s.channel, r.isMutation = true) ∨ s.current ≠ .transferFencing)
    (happend : w.appending = true → w₀.appending = true ∨
      (s.current ≠ .transferQuiesced ∧ ¬ Stopped s.current ∧ w₀.isFailing = false))
    (hfailing : w₀.isFailing = true → Stopped s.current ∨ w.isFailing = true) :
    FenceInv { s with queuedRequests := queued, channel := channel, worker := w } := by
  subst hw
  refine ⟨?_, h.handles, h.fencing, fun c hc hd hl => ?_,
    fun hl => Bool.eq_false_iff.mpr fun hw => ?_, fun n hn => ?_⟩
  · have := h.counted
    simp only
    omega
  · have q := h.drained c hc hd hl
    refine ⟨q.calls, fun r hr => q.channel r (hch r hr), Bool.eq_false_iff.mpr fun hw => ?_⟩
    obtain hw | ⟨r, hr, hm⟩ | hl' := hwriting hw
    · simp [q.worker] at hw
    · simp [q.channel r hr] at hm
    · exact hl' hl
  · rcases happend hw with hw | hw
    · simp [h.quiesced hl] at hw
    · exact hw.1 hl
  · obtain ⟨ha, hw, hs⟩ := h.fenced n hn
    refine ⟨ha, Bool.eq_false_iff.mpr fun hw' => ?_, hs.elim .inl hfailing⟩
    rcases happend hw' with h1 | ⟨-, h2, h3⟩
    · simp [hw] at h1
    · exact hs.elim h2 fun hf => by simp [h3] at hf

/-- The worker answers `n` of the requests in its hands and does not start to append. -/
theorem finish {n : ℕ} (hn : w.inHand + n = w₀.inHand)
    (hwriting : w.writing = true → w₀.writing = true)
    (happend : w.appending = true → w₀.appending = true)
    (hfailing : w₀.isFailing = true → Stopped s.current) : FenceInv (s.finish n w) := by
  have hq := h.counted
  refine h.worked hw ?_ (fun _ => id) (fun hw => .inl (hwriting hw)) (fun hw => .inl (happend hw))
    fun hf => .inl (hfailing hf)
  rw [hw] at hq
  omega

/-- The failed write is reported before the word is stored. -/
theorem fail {n : ℕ} (hn : n + 1 = w₀.inHand) (hf : w₀.isFailing = false) :
    FenceInv { s with worker := .failing n }.fence := by
  have hs : FenceInv { s with worker := .failing n } := by
    refine h.worked hw ?_ (fun _ => id) nofun nofun fun h' => by simp [hf] at h'
    rw [← hn]
    rfl
  exact hs.fence rfl (.inr rfl)

end

/-- The worker turns to a handle through which a split is dispatched. -/
theorem installIngress {plan : SplitPlan} (h : FenceInv { s with worker := .cutoverStore })
    (hj : j < s.opened) (hopen : j = s.home ∨ fenceable s.current = true) :
    FenceInv (s.installIngress j plan) := by
  have hlt := Nat.lt_succ_of_lt hj
  rcases hopen with rfl | hopen
  · have hs := (h.rewire (a := { s.handle s.home with
      splitIngress := some (plan.splitKey, s.opened) }) rfl).setHandle
      (a := ⟨⟨plan.parentRange.start, some plan.splitKey⟩, plan.parentNextEpoch, .serving, none⟩)
      (fun heq => absurd heq hj.ne') fun _ => rfl
    exact ⟨hs.counted, ⟨hlt, hs.handles.2⟩, hs.fencing,
      fun c hc hd hl => (hs.drained c hc hd hl).same rfl rfl rfl, hs.quiesced, hs.fenced⟩
  · -- the words that the worker does not read are open, and so is the one it leaves
    have hopens : ∀ k, fenceable (s.word k) = true := by
      intro k
      by_cases hk : k = s.home
      · exact hk ▸ hopen
      · exact h.handles.2 k hk
    have hall : ∀ k, fenceable ((s.installIngress j plan).word k) = true := by
      intro k
      have := hopens k
      simp only [HandleState.installIngress, word, HandleState.setHandle, Function.update_apply]
      split
      · rfl
      · split
        · next hk => exact hk ▸ this
        · exact this
    refine h.relax hopen (fun hq => ?_) ⟨hlt, fun k _ => hall k⟩
    have := hall j
    rw [show (s.installIngress j plan).word j = .transferQuiesced from hq] at this
    cases this

/-- An append is counted while no fence is down. -/
theorem appendCounted (h : FenceInv s) (hw : s.worker.appending = true) :
    FenceInv { s with appended := s.appended + 1 } where
  counted := h.counted
  handles := h.handles
  fencing := h.fencing
  drained := fun c hc hd hl => (h.drained c hc hd hl).same rfl rfl rfl
  quiesced := h.quiesced
  fenced := fun n hn => by simp [(h.fenced n hn).2.1] at hw

end FenceInv

/-! ## One step -/

section Step
variable {s t : HandleState} {j : ℕ} {c : Call} {ok : Bool}

lemma FenceInv.exchange {expected new : PartitionLifecycle} {won : HandleState → HandleState}
    {lost : HandleState} (hwon : s.word j = expected → FenceInv (won (s.setLifecycle j new)))
    (hlost : s.word j ≠ expected → FenceInv lost) :
    FenceInv (exchange s j expected new won lost) := by
  unfold ChunkKv.exchange
  split
  · next hl => exact hwon hl
  · next hl => exact hlost hl

/-- The exchange of a suspend call sets the fence over an open lifecycle. -/
theorem FenceInv.setFence (h : FenceInv s) (hl : fenceable s.current = true) :
    FenceInv ((s.setLifecycle s.home .transferFencing).push s.home .drain) := by
  have hs : FenceInv (s.setLifecycle s.home .transferFencing) :=
    h.relax hl (by simp) ⟨h.handles.1, fun k hk => by simpa [word, hk] using h.handles.2 k hk⟩
  exact hs.enter rfl (fun _ => ⟨rfl, .inl (current_setLifecycle s)⟩) nofun rfl

/-- A suspend call finds the fence of another one, and waits behind it. -/
theorem FenceInv.joinFence (h : FenceInv s) (hl : s.current = .transferFencing) :
    FenceInv (s.push s.home .drain) :=
  h.enter rfl (fun _ => ⟨rfl, .inl hl⟩) nofun rfl

lemma FenceInv.callStep (h : FenceInv (s.push j c)) (hg : unraced s (.advance j c ok) = true)
    (ht : callStep s j ok c = some t) : FenceInv t := by
  cases c <;> simp only [ChunkKv.callStep, some.injEq] at ht
  case mutate =>
    split at ht <;> cases ht <;> split
    · exact (h.drop rfl).enter rfl nofun nofun rfl
    · exact h.drop rfl
    · exact h.next rfl nofun nofun nofun
    · exact h.drop rfl
  case suspendForShutdown | recordSplitArtifact | commitSplit | completeLocalSplitHandoff =>
    subst ht; split
    · exact h.next rfl nofun nofun nofun
    · exact h.drop rfl
  case mutateReserve | appendPreparedTransferMutation =>
    subst ht; split
    · exact h.reserve rfl rfl rfl rfl
    · exact h.drop rfl
  case mutateRecheck =>
    subst ht; split
    · next hl =>
      have hfree : s.current ≠ .transferFencing := by
        rcases (by simpa [unraced] using hg : j = s.home ∨ s.current ≠ .transferFencing)
          with rfl | hf
        · exact fun hf => by simp [hf, acceptsMutations] at hl
        · exact hf
      exact h.next rfl nofun nofun fun _ => .inr hfree
    · exact h.release rfl
  case mutateSend =>
    subst ht; split
    · exact h.sent rfl fun _ => rfl
    · exact h.release rfl
  case transferSend =>
    subst ht; split
    · exact h.sent rfl nofun
    · exact h.release rfl
  case catchUpPreparedTransfer =>
    subst ht; split
    · exact h.sent rfl nofun
    · exact h.drop rfl
  case installChildCutoverSession => exact ht ▸ h.sent rfl nofun
  case suspendForTransfer =>
    have hs := h.drop rfl
    obtain rfl : j = s.home := by simpa [unraced] using hg
    subst ht; split
    · refine FenceInv.exchange (fun hl => hs.setFence (congrArg fenceable hl)) fun _ => ?_
      split
      · next hl => exact hs.joinFence hl
      · exact hs.suspendLost rfl
    · exact hs
  case shutdownLoad =>
    have hs := h.drop rfl
    obtain rfl : j = s.home := by simpa [unraced] using hg
    subst ht; split
    · exact h.next rfl nofun nofun nofun
    · split
      · next hl => exact hs.joinFence hl
      · exact hs.suspendLost rfl
  case shutdownExchange =>
    obtain rfl : j = s.home := by simpa [unraced] using hg
    split at ht <;> cases ht
    next hl =>
    exact FenceInv.exchange (fun heq => (h.drop rfl).setFence (by rwa [current, heq])) fun _ =>
      h.next rfl nofun nofun nofun
  case drain =>
    split at ht <;> cases ht
    next hq =>
    exact (h.drop rfl).enter rfl (fun _ => h.fencing (j, .drain) (.head _) rfl) (fun _ => hq) rfl
  case drainedLoad | releaseWriter =>
    subst ht; split
    · exact h.next rfl (fun _ => rfl) (fun _ => rfl) nofun
    · exact h.drop rfl
  case quiesceExchange =>
    obtain rfl : j = s.home := (h.fencing (j, .quiesceExchange) (.head _) rfl).1
    exact ht ▸ FenceInv.exchange h.quiesce fun _ => (h.drop rfl).suspendLost rfl
  case beginSplit plan =>
    have hnext : FenceInv (s.push j (.beginExchange plan)) := h.next rfl nofun nofun nofun
    split at ht
    · split at ht <;> cases ht
      split
      · exact h.drop rfl
      · exact hnext.metadata
    · exact some.inj ht ▸ h.drop rfl
  case beginExchange =>
    have hs : FenceInv { s with locked := false } := (h.drop rfl).metadata
    refine ht ▸ FenceInv.exchange (fun hl => ?_) fun _ => hs
    exact (hs.setWord (fun hj => hj ▸ congrArg fenceable hl) rfl).metadata
  case beginSplitFinalization =>
    split at ht <;> cases ht
    split
    · exact h.next rfl nofun nofun nofun
    · exact h.drop rfl
  case finalizeExchange =>
    have hnext : FenceInv (s.push j .finalizeDrain) := h.next rfl nofun nofun nofun
    refine ht ▸ FenceInv.exchange (fun hl => ?_) fun _ => ?_
    · exact hnext.setWord (fun hj => hj ▸ congrArg fenceable hl) rfl
    · split
      · exact hnext
      · exact h.drop rfl
  case finalizeDrain =>
    split at ht <;> cases ht
    exact h.drop rfl
  case recordLock =>
    split at ht <;> cases ht
    split
    · split
      · exact (h.drop rfl).metadata
      · exact h.drop rfl
    · exact h.drop rfl
  case commitLock =>
    split at ht <;> cases ht
    split
    · split
      · refine FenceInv.enter (c := .commitStore) ?_ rfl nofun nofun rfl
        exact (h.drop rfl).metadata.rewire rfl
      · exact h.drop rfl
    · exact h.drop rfl
  case commitStore | handoffStore =>
    have hs : FenceInv { s with locked := false } := (h.drop rfl).metadata
    have hl : j ≠ s.home ∨ s.current = .splitFinalizing := by simpa [unraced] using hg
    exact ht ▸ hs.setWord (fun hj => congrArg fenceable (hl.resolve_left (not_not_intro hj))) rfl
  case handoffLock =>
    have hnext : FenceInv (s.push j .handoffStore) := h.next rfl nofun nofun nofun
    split at ht <;> cases ht
    split
    · exact hnext.metadata
    · exact h.drop rfl
  case abortSplit =>
    have hnext : FenceInv (s.push j .abortLoad) := h.next rfl nofun nofun nofun
    split at ht
    · exact some.inj ht ▸ h.drop rfl
    · split at ht <;> cases ht
      split
      · exact hnext.metadata
      · exact h.drop rfl
  case abortLoad =>
    subst ht; split
    · refine FenceInv.enter (c := .abortStore) ?_ rfl nofun nofun rfl
      exact (h.drop rfl).metadata.rewire rfl
    · exact (h.drop rfl).metadata
  case abortStore =>
    have hs : FenceInv { s with locked := false } := (h.drop rfl).metadata
    have hl : (j ≠ s.home ∨ s.current = .splitPreparing) ∨ s.current = .splitFinalizing := by
      simpa [unraced] using hg
    exact ht ▸ hs.setWord (fun hj => hl.elim (fun hl => congrArg fenceable
      (hl.resolve_left (not_not_intro hj))) (congrArg fenceable)) rfl
  case activate =>
    have hs := h.drop rfl
    refine ht ▸ FenceInv.exchange (fun hl => ?_) fun _ => hs
    exact hs.setWord (fun hj => by rw [current, ← hj, hl]; rfl) rfl

lemma accepted_open (h : workerAcceptsMutations l = true) : ¬ Stopped l := by
  cases l <;> simp_all [workerAcceptsMutations, acceptsMutations, Stopped]

lemma takeRequest_inHand (r : WorkerRequest) :
    (takeRequest r).inHand = if r.counted then 1 else 0 := by
  cases r <;> rfl

lemma batchRest_inHand (n : ℕ) : (batchRest n).inHand = n := by
  cases n <;> rfl

lemma applyingRest_inHand (n : ℕ) : (applyingRest n).inHand = n := by
  cases n <;> rfl

lemma FenceInv.workerStep {a : WorkerAction} (h : FenceInv s)
    (hg : unraced s (.work a) = true) (ht : workerStep s a = some t) : FenceInv t := by
  cases a <;> simp only [ChunkKv.workerStep] at ht
  case take =>
    split at ht <;> cases ht
    next r rest hw hc =>
    refine h.worked hw ?_ (fun q hq => hc ▸ .tail _ hq) (fun hr => ?_) (fun hr => ?_) nofun
    · rw [hc, takeRequest_inHand, countP_cons]
      simp only [inHand]
      omega
    · refine .inr (.inl ⟨r, hc ▸ .head _, ?_⟩)
      cases r <;> first | rfl | cases hr
    · cases r <;> cases hr
  case look =>
    split at ht <;> cases ht
    · next key hw =>
      have hdone : FenceInv (s.finish 1 .idle) := h.finish hw rfl nofun nofun nofun
      split
      · exact hdone
      · split
        · next hl =>
          have hopen := accepted_open hl
          exact h.worked hw rfl (fun _ => id) (fun _ => .inl rfl)
            (fun _ => .inr ⟨fun hq => hopen (.inr (.inr hq)), hopen, rfl⟩) nofun
        · exact hdone
    · next hw =>
      by_cases hl : s.current = .serving
      · rw [if_pos hl]
        exact h.worked hw rfl (fun _ => id) (fun _ => .inr (.inr (by simp [hl])))
          (fun _ => .inr ⟨by simp [hl], by simp [Stopped, hl], rfl⟩) nofun
      · rw [if_neg hl]
        exact h.worked hw rfl (fun _ => id) nofun nofun nofun
    · next hw =>
      split
      · next hl =>
        exact h.worked hw rfl (fun _ => id) (fun _ => .inr (.inr (by simp [hl])))
          (fun _ => .inr ⟨by simp [hl], by simp [Stopped, hl], rfl⟩) nofun
      · exact h.finish hw rfl nofun nofun nofun
  case gather =>
    split at ht
    · next n key rest hw hc =>
      split at ht <;> cases ht
      refine h.worked hw ?_ (fun q hq => hc ▸ .tail _ hq) (fun _ => .inl rfl) (fun _ => .inl rfl)
        nofun
      rw [hc, countP_cons_of_pos rfl]
      simp only [inHand]
      omega
    · cases ht
  case answer =>
    split at ht <;> cases ht
    · next n _ hw =>
      exact h.finish hw (by rw [batchRest_inHand]; rfl) (fun _ => rfl) (fun _ => rfl) nofun
    · next hw => exact h.finish hw rfl nofun nofun nofun
  case exhausted =>
    split at ht <;> cases ht
    next n _ hw =>
    exact (h.halt (.inr (.inl rfl)) nofun).finish hw (by rw [batchRest_inHand]; rfl)
      (fun _ => rfl) (fun _ => rfl) nofun
  case append =>
    split at ht <;> cases ht
    · next n _ hw =>
      have hs := h.appendCounted (by rw [hw]; rfl)
      split
      · exact hs.worked hw rfl (fun _ => id) nofun nofun nofun
      · exact hs.fail hw rfl rfl
    · next hw =>
      have hs := h.appendCounted (by rw [hw]; rfl)
      split
      · exact hs.finish hw rfl nofun nofun nofun
      · exact hs.fail hw rfl rfl
  case apply =>
    split at ht <;> cases ht
    next n hw =>
    split
    · exact h.finish hw (by rw [applyingRest_inHand]; rfl) (by cases n <;> nofun)
        (by cases n <;> nofun) nofun
    · exact h.fail hw rfl rfl
  case store =>
    split at ht <;> cases ht
    · next n hw =>
      exact (h.halt (.inl rfl) nofun).finish hw (Nat.zero_add _) nofun nofun fun _ =>
        .inl (current_setLifecycle s)
    · next hw =>
      have hl : s.current = .splitPreparing ∨ s.current = .splitFinalizing := by
        simpa [unraced, hw] using hg
      have hs : FenceInv { s with worker := .idle } :=
        h.worked hw rfl (fun _ => id) nofun nofun nofun
      exact hs.setWord (fun _ => hl.elim (congrArg fenceable) (congrArg fenceable)) rfl
  case control =>
    split at ht
    · next hw =>
      cases ht
      have hs : FenceInv { s with worker := .idle } :=
        h.worked hw rfl (fun _ => id) nofun nofun nofun
      split
      · next hok =>
        have hl : s.current = .prepared := by
          subst hok
          simpa [unraced, hw] using hg
        exact hs.setWord (fun _ => congrArg fenceable hl) rfl
      · exact (hs.halt (.inl rfl) nofun).fence rfl (.inl (.inl (current_setLifecycle s)))
    · next parent plan hw =>
      split at ht <;> cases ht
      next hfree =>
      have hparent : parent < s.opened := by omega
      have hs (w : WorkerPoint) (hin : w.inHand = 0) (hwr : w.writing = false) :
          FenceInv { s with worker := w } :=
        h.worked hw (by rw [hin]; rfl) (fun _ => id) (by simp [hwr])
          (by simp [appending_of_writing hwr]) nofun
      split
      · next hok =>
        have hopen : parent = s.home ∨ fenceable s.current = true := by
          obtain ⟨rfl, -⟩ := Bool.and_eq_true_iff.mp hok
          simpa [unraced, hw] using hg
        exact (hs .cutoverStore rfl rfl).installIngress hparent hopen
      · exact hs .idle rfl rfl
    · cases ht

/-- Every unraced step keeps the invariant. -/
theorem FenceInv.step {a : HandleAction} (h : FenceInv s) (hg : unraced s a = true)
    (ht : handleStep s a = some t) : FenceInv t := by
  cases a with
  | start j c =>
    simp only [handleStep] at ht
    split at ht <;> cases ht
    next hc =>
    have hc := hc.1
    have hentry : c.holdsSlot = false ∧ c.suspending = false ∧ c.drained = false ∧
        c.sending = false := by
      cases c <;> simp_all [Call.entry, Call.holdsSlot, Call.suspending, Call.drained, Call.sending]
    obtain ⟨hslot, hsusp, hdrain, hsend⟩ := hentry
    exact h.enter hslot (by simp [hsusp]) (by simp [hdrain]) hsend
  | advance j c =>
    simp only [handleStep] at ht
    split at ht
    · next hc =>
      have hpush : FenceInv ({ s with calls := s.calls.erase (j, c) }.push j c) :=
        h.perm (perm_cons_erase hc)
      refine hpush.callStep ?_ ht
      cases c <;> exact hg
    · cases ht
  | work => exact h.workerStep hg ht

end Step

/-- In every run whose plain stores find the worker's word as they checked it, and in which
the handles that the worker does not read neither suspend it, nor admit mutations while it
is fenced, nor take it from a fenced word, the number of appends stays what it was when
the first fence came down. -/
theorem write_fences_permanent {s : HandleState} {n : ℕ}
    (h : handleSystem.Reach (fun s a => unraced s a = true) s) (hn : s.fencedAt = some n) :
    s.appended = n := by
  have inv : FenceInv s := by
    refine h.invariant ?_ fun s a t hs hg => hs.step hg
    rintro s ⟨id, range, epoch, lifecycle, hl, rfl⟩
    refine ⟨rfl, ⟨Nat.one_pos, fun _ _ => ?_⟩, fun c hc => absurd hc not_mem_nil,
      fun c hc => absurd hc not_mem_nil, fun _ => rfl, nofun⟩
    exact hl.elim (congrArg fenceable) (congrArg fenceable)
  exact (inv.fenced n hn).1

/-! ## Runs -/

/-- A handle over all keys, in epoch `1`. -/
def exampleHandle : HandleState :=
  { id := ⟨0, 1⟩, handle := fun _ => ⟨⟨none, none⟩, 1, .serving, none⟩ }

lemma exampleHandle_init : handleSystem.init exampleHandle := ⟨_, _, _, _, .inl rfl, rfl⟩

def exampleSplitPlan : SplitPlan where
  transitionId := 1
  parentId := ⟨0, 1⟩
  parentRange := ⟨none, none⟩
  parentEpoch := 1
  parentNextEpoch := 2
  splitKey := [9]
  child := ⟨⟨0, 2⟩, ⟨some [9], none⟩, 1⟩

/-- One mutation passes admission and the worker's lifecycle check. -/
def admitOne : List HandleAction :=
  [.start 0 (.mutate 1 [1]), .advance 0 (.mutate 1 [1]) true, .advance 0 (.mutateReserve [1]) true,
    .advance 0 (.mutateRecheck [1]) true, .advance 0 (.mutateSend [1]) true,
    .work .take, .work .look]

def beginOne : List HandleAction :=
  [.start 0 (.beginSplit exampleSplitPlan), .advance 0 (.beginSplit exampleSplitPlan) true,
    .advance 0 (.beginExchange exampleSplitPlan) true]

def abortProof : SplitAbortProof := ⟨7, 1, ⟨0, 1⟩, 1⟩

open HandleAction in
/-- `abort_split` loads `SplitPreparing`; the worker's append fails and stores
`Recovering`; the abort stores `Serving` over it, and the next mutation is appended. -/
def abortOverFailure : List HandleAction :=
  beginOne ++ admitOne ++
    [start 0 (.abortSplit abortProof), advance 0 (.abortSplit abortProof) true,
      advance 0 .abortLoad true, work (.append false), work .store, advance 0 .abortStore true] ++
    admitOne ++ [work (.append true)]

theorem fence_lifted_by_abort :
    ∃ s, handleSystem.Reach System.Free s ∧ s.fencedAt = some 1 ∧ s.appended = 2 :=
  ⟨_, System.reach_run abortOverFailure exampleHandle_init, by decide +kernel, by decide +kernel⟩

open HandleAction in
/-- A suspend call drains one mutation and returns `Ok`; a later mutation is refused. -/
def suspendOne : List HandleAction :=
  admitOne ++ [start 0 (.suspendForTransfer 1), advance 0 (.suspendForTransfer 1) true,
    work (.append true), work (.apply true), advance 0 .drain true, advance 0 .drainedLoad true,
    advance 0 .releaseWriter true, advance 0 .quiesceExchange true,
    start 0 (.mutate 1 [2]), advance 0 (.mutate 1 [2]) true]

theorem write_fences_permanent_suspended :
    ∃ s, handleSystem.Reach (fun s a => unraced s a = true) s ∧ s.fencedAt = some 1 ∧
      s.appended = 1 := by
  have hr := System.reach_runGuarded (g := unraced) suspendOne exampleHandle_init
  exact ⟨_, hr, by decide +kernel, write_fences_permanent hr (by decide +kernel)⟩

end CrowDB.ChunkKv
