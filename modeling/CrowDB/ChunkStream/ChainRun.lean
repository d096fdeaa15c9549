import CrowDB.ChunkStream.Pins

/-!
# The chain over whole runs

Tasks and pins take their steps in any order. The attached records stay in order and cover the
stream, and no publication is undone.
-/
namespace CrowDB.ChunkStream
open Lib List Option

variable {s s' : StreamState} {a : Action}

structure StreamInv (s : StreamState) : Prop extends Core s.toLedger where
  tasks : ∀ task ∈ s.tasks, task.Ok s.toLedger s.now
  views : ∀ v ∈ s.views, v.Ok s.store

lemma StreamInv.init : StreamInv {} := by
  refine ⟨⟨⟨Pairwise.nil, ?_, ?_, ?_, ?_, Pairwise.nil, ?_, Pairwise.nil⟩, ?_, ?_, ?_,
    ?_, ?_, ?_⟩, ?_, ?_⟩ <;> simp [Store.loadTail]

/-! ## What a step does -/

/-- The actions of readers. -/
def Action.reading : Action → Bool
  | .beginRead _ _ | .locateRead _ _ | .checkRead _ | .readChunk _ | .endRead _ => true
  | _ => false

/-- The publication that begins. -/
def Action.request : Action → Option PublishRequest
  | .publish q => some q
  | _ => none

lemma Action.asksNothing {P : PublishRequest → Prop} (h : a.request = none) :
    ∀ q, a.request = some q → P q :=
  fun q hq => absurd (hq.symm.trans h) (some_ne_none q)

/-- Someone has asked for the publication. -/
def StreamState.Asked (s : StreamState) (q : PublishRequest) : Prop :=
  q ∈ s.committed ∨ ∃ task ∈ s.tasks, task.request = some q

/-- What becomes of a view while its process does not run. -/
structure ViewKeeps (s : StreamState) (a : Action) (i : ℕ) (v w : ReadView) : Prop where
  captured : w.captured = v.captured
  pin : w.pin = v.pin
  started : w.started = v.started
  deadline : w.deadline = v.deadline
  phase : w.phase = v.phase ∨ w.phase = .releaseLoad ∧ v.dropped = true
  dropped : w.dropped = v.dropped ∨ w.dropped = true ∧ ∀ r ∈ s.reads, r.view ≠ i
  extents : ∀ e ∈ w.extents, e ∈ v.extents ∨ ∃ worker length wk, a = .append worker length ∧
    s.workers[worker]? = some wk ∧ s.views[wk.view]? = some v ∧
      e.chunkId = wk.snapshot.record.chunkId

lemma ViewKeeps.refl (s : StreamState) (a : Action) (i : ℕ) (v : ReadView) :
    ViewKeeps s a i v v :=
  ⟨rfl, rfl, rfl, rfl, .inl rfl, .inl rfl, fun _ => .inl⟩

/-- What is left of a view, or a view that begins with its pin. -/
def ViewFrom (s : StreamState) (a : Action) (i : ℕ) (w : ReadView) : Prop :=
  (∃ v, s.views[i]? = some v ∧ ViewKeeps s a i v w) ∨
    ∃ record wall, s.views[i]? = none ∧ shows s.now wall = true ∧
      w = { captured := record, pin := pinOf record i wall, started := s.now, stop := record.stop }

/-- A step outside of the store: calls, clocks, workers and reads. -/
structure Aside (s : StreamState) (a : Action) (s' : StreamState) : Prop where
  store : s'.store = s.store
  committed : s'.committed = s.committed
  condemned : s'.condemned = s.condemned
  released : s'.released = s.released
  handed : Handed s.toLedger s'.toLedger
  now : s.now ≤ s'.now
  tasks : ∀ task ∈ s'.tasks, task ∈ s.tasks ∨ task.Ok s.toLedger s'.now ∧
    ∀ q, task.request = some q → s.Asked q ∨ a.request = some q
  allocated : s.allocated ⊆ s'.allocated
  publish : ∀ q, a.request = some q → q.attaches = true →
    q.tail.chunkId ∉ s.allocated ∧ q.tail.chunkId ∈ s'.allocated
  length : s.views.length ≤ s'.views.length
  views : ∀ i w, s'.views[i]? = some w → ViewFrom s a i w
  reads : a.reading = false → s'.reads = s.reads ∧ s'.cache = s.cache ∧ s'.delivered = s.delivered

lemma Aside.refl (s : StreamState) (ha : a.request = none) : Aside s a s :=
  ⟨rfl, rfl, rfl, rfl, .of_eq rfl rfl, le_rfl, fun _ => .inl, Subset.refl _,
    Action.asksNothing ha, le_rfl, fun i w hw => .inl ⟨w, hw, .refl s a i w⟩,
    fun _ => ⟨rfl, rfl, rfl⟩⟩

variable {i : ℕ} {w : ReadView}

lemma getElem?_setView {views : List ReadView} {j : ℕ} {u : ReadView}
    (h : (views.set i w)[j]? = some u) : views[j]? = some u ∨ j = i ∧ u = w := by
  rw [getElem?_set] at h
  split at h
  next heq =>
    split at h
    · exact .inr ⟨heq.symm, (some.inj h).symm⟩
    · cases h
  · exact .inl h

/-- Nothing but a view has changed. -/
theorem Aside.setView {v : ReadView} (hv : s.views[i]? = some v) (hw : ViewKeeps s a i v w)
    (ha : a.request = none) : Aside s a { s with views := s.views.set i w } := by
  refine { Aside.refl s ha with length := (length_set ..).ge, views := fun j u hu => ?_ }
  rcases getElem?_setView hu with hold | ⟨rfl, rfl⟩
  · exact .inl ⟨u, hold, .refl s a j u⟩
  · exact .inl ⟨v, hv, hw⟩

/-- A task begins. -/
theorem Aside.addTask (s : StreamState) (task : Task) (hok : task.Ok s.toLedger s.now)
    (hask : task.request = a.request) {allocated : List ChunkId}
    (hsub : s.allocated ⊆ allocated)
    (hpublish : ∀ q, a.request = some q → q.attaches = true →
      q.tail.chunkId ∉ s.allocated ∧ q.tail.chunkId ∈ allocated) :
    Aside s a { s.addTask task with allocated := allocated } := by
  refine ⟨rfl, rfl, rfl, rfl, .of_eq rfl rfl, le_rfl, forall_mem_concat (fun _ => .inl) ?_, hsub,
    hpublish, le_rfl, fun i w hw => .inl ⟨w, hw, .refl s a i w⟩, fun _ => ⟨rfl, rfl, rfl⟩⟩
  exact .inr ⟨hok, fun q hq => .inr (hask ▸ hq)⟩

variable {q : PublishRequest}

lemma retriable_eq_some {task : Task} (h : StreamState.retriable task = some q) :
    ∃ e, task = .published q (.error e) := by
  cases task with
  | published _ result =>
    cases result with
    | ok => cases h
    | error e =>
      obtain ⟨-, heq⟩ := ite_none_left_eq_some.mp h
      cases heq
      exact ⟨e, rfl⟩
  | _ => cases h

lemma StreamInv.retry {task : Task} (h : StreamInv s) (htask : s.tasks[i]? = some task)
    (hretry : StreamState.retriable task = some q) :
    Aside s (.retry i) { s with tasks := s.tasks.set i (.publish q) } := by
  obtain ⟨e, rfl⟩ := retriable_eq_some hretry
  have hmem := mem_of_getElem? htask
  refine { Aside.refl s rfl with tasks := forall_mem_set (fun _ => .inl) (.inr ⟨?_, ?_⟩) }
  · exact h.tasks (.published q (.error e)) hmem
  · exact fun q' hq' => .inl (.inr ⟨_, hmem, hq'⟩)

lemma aside_pin {record : StreamChunkRecord} {captured : Snapshot} {wall : ℕ}
    (hshows : shows s.now wall = true) :
    Aside s (.pin captured wall) { s with views := s.views ++
      [{ captured := record, pin := pinOf record s.views.length wall, started := s.now,
         stop := record.stop }] } := by
  refine { Aside.refl s rfl with
    length := by simp
    views := fun j u hu => ?_ }
  simp only [getElem?_append] at hu
  split at hu
  · exact .inl ⟨u, hu, .refl s _ j u⟩
  next hge =>
    obtain ⟨hlt, heq⟩ := List.getElem?_eq_some_iff.mp hu
    simp only [length_singleton] at hlt
    have hj : j = s.views.length := by omega
    subst hj
    simp only [Nat.sub_self] at heq
    exact .inr ⟨record, wall, getElem?_eq_none le_rfl, hshows, heq.symm⟩

/-- A step runs a task, or the process of a pin, or is one outside of the store. -/
theorem StreamInv.cases (h : StreamInv s) (hstep : streamSystem.step s a = some s') :
    (∃ i input task next, a = .run i input ∧ s.tasks[i]? = some task ∧
      Ran s.toLedger s.now task next ∧
        s' = { s with toLedger := next.1, tasks := s.tasks.set i next.2 }) ∨
    (∃ i input v next, a = .lease i input ∧ s.views[i]? = some v ∧ PinRan s i v next ∧
        s' = { s with store := next.1, views := s.views.set i next.2 }) ∨
    Aside s a s' := by
  simp only [streamSystem] at hstep
  cases a <;> simp only [StreamState.step, bind_eq_some_iff, map_eq_some_iff,
    ite_none_right_eq_some, some.injEq] at hstep
  case run i input =>
    obtain ⟨task, htask, next, hrun, rfl⟩ := hstep
    exact .inl ⟨i, input, task, next, rfl, htask,
      h.toCore.runTask (h.tasks task (mem_of_getElem? htask)) hrun, rfl⟩
  case lease i input =>
    obtain ⟨v, hv, next, hrun, rfl⟩ := hstep
    exact .inr (.inl ⟨i, input, v, next, rfl, hv,
      h.toCore.runPin (h.views v (mem_of_getElem? hv)) hrun, rfl⟩)
  all_goals refine .inr (.inr ?_)
  case load =>
    obtain ⟨t, ht, rfl⟩ := hstep
    exact { Aside.refl s rfl with handed := .capture ht rfl rfl }
  case loadCandidates =>
    subst hstep
    refine { Aside.refl s rfl with handed := ⟨fun sn => .inl, fun sn hsn => ?_⟩ }
    exact (mem_append.mp hsn).elim (fun hnew => .inr (h.chain.reserved sn hnew).2) .inl
  case publish q =>
    obtain ⟨⟨hprevious, hexpected, hcandidate, hfresh⟩, rfl⟩ := hstep
    have hprep : Prepared s.store q := ⟨hprevious, fun e he => h.snapshots e (hexpected e he),
      fun c hc => h.reservations c (hcandidate c hc)⟩
    refine .addTask s (.publish q) hprep rfl ?_ fun _ hq hattach => ?_
    · split
      · exact subset_cons_self _ _
      · exact Subset.refl _
    · cases hq
      exact ⟨hfresh hattach, by simp [hattach]⟩
  case reserve | collect =>
    obtain ⟨-, rfl⟩ := hstep
    exact .addTask s _ (by trivial) rfl (Subset.refl _) (Action.asksNothing rfl)
  case register | remove =>
    subst hstep
    exact .addTask s _ (by trivial) rfl (Subset.refl _) (Action.asksNothing rfl)
  case pin =>
    obtain ⟨⟨-, hshows⟩, rfl⟩ := hstep
    exact aside_pin hshows
  case release =>
    obtain ⟨v, hv, ⟨-, hdropped⟩, rfl⟩ := hstep
    exact .setView hv ⟨rfl, rfl, rfl, rfl, .inr ⟨rfl, hdropped⟩, .inl rfl, fun e => .inl⟩ rfl
  case retry =>
    obtain ⟨q, ⟨task, htask, hretry⟩, rfl⟩ := hstep
    exact h.retry htask hretry
  case tick =>
    subst hstep
    exact { Aside.refl s rfl with now := Nat.le_add_right _ _, tasks := fun _ => .inl }
  case dropView =>
    obtain ⟨v, hv, ⟨-, hreads, -⟩, rfl⟩ := hstep
    exact .setView hv ⟨rfl, rfl, rfl, rfl, .inl rfl, .inr ⟨rfl, hreads⟩, fun e he => .inl he⟩ rfl
  case append worker length =>
    obtain ⟨wk, hwk, v, hv, -, rfl⟩ := hstep
    refine .setView hv ⟨rfl, rfl, rfl, rfl, .inl rfl, .inl rfl, ?_⟩ rfl
    exact forall_mem_concat (fun _ => .inl) (.inr ⟨worker, length, wk, rfl, hwk, hv, rfl⟩)
  case startWorker | workerPublished | workerViewFailed =>
    obtain ⟨_, _, _, rfl⟩ := hstep
    exact { Aside.refl s rfl with }
  case workerViewed =>
    obtain ⟨_, _, _, _, _, rfl⟩ := hstep
    exact { Aside.refl s rfl with }
  case beginRead =>
    obtain ⟨_, _, _, rfl⟩ := hstep
    exact { Aside.refl s rfl with reads := nofun }
  case locateRead =>
    obtain ⟨_, _, _, _, _, _, _, rfl⟩ := hstep
    exact { Aside.refl s rfl with reads := nofun }
  case checkRead | readChunk | endRead =>
    obtain ⟨_, _, _, _, _, rfl⟩ := hstep
    exact { Aside.refl s rfl with reads := nofun }

lemma Aside.change (h : Aside s a s') (hcore : Core s.toLedger) :
    Change s.toLedger none s'.toLedger :=
  (Change.refl hcore none).congr h.store h.committed h.condemned

/-! ## Steps keep the chain -/

/-- A step that goes on with the store, and with tasks or pins. -/
theorem StreamInv.next {request : Option PublishRequest} (h : StreamInv s)
    (hc : Change s.toLedger request s'.toLedger) (hh : Handed s.toLedger s'.toLedger)
    (hnow : s.now ≤ s'.now)
    (htasks : ∀ task ∈ s'.tasks, task ∈ s.tasks ∨ task.Ok s'.toLedger s'.now)
    (hviews : ∀ v ∈ s'.views, v ∈ s.views ∨ v.Ok s'.store) :
    StreamInv s' ∧ Evolves s.toLedger s'.toLedger := by
  obtain ⟨hcore, he⟩ := hc.core h.toCore hh
  refine ⟨⟨hcore, fun task htask => ?_, fun v hv => ?_⟩, he⟩
  · exact (htasks task htask).elim
      (fun hold => (h.tasks task hold).evolve h.chain he hnow) fun hok => hok
  · exact (hviews v hv).elim (fun hold => (h.views v hold).moved h.chain he.moved) fun hok => hok

/-- A view that was left alone knows what it knew. -/
theorem ViewKeeps.ok {v : ReadView} {st : Store} (h : ViewKeeps s a i v w) (hv : v.Ok st) :
    w.Ok st := by
  rcases h.phase with hsame | ⟨hload, -⟩
  · simp only [ReadView.Ok, hsame, h.pin]
    exact hv
  · simp [ReadView.Ok, hload]

lemma StreamInv.step (h : StreamInv s) (hstep : streamSystem.step s a = some s') :
    StreamInv s' ∧ Evolves s.toLedger s'.toLedger := by
  rcases h.cases hstep with ⟨i, input, task, next, rfl, htask, hran, rfl⟩ |
    ⟨i, input, v, next, rfl, hv, hran, rfl⟩ | haside
  · exact h.next hran.change hran.handed le_rfl (forall_mem_set (fun _ => .inl) (.inr hran.ok))
      fun v => .inl
  · exact h.next hran.change (.of_eq rfl rfl) le_rfl (fun task => .inl)
      (forall_mem_set (fun _ => .inl) (.inr hran.ok))
  · have hc := haside.change h.toCore
    have he := (hc.core h.toCore haside.handed).2
    refine h.next hc haside.handed haside.now (fun task htask => ?_) fun w hw => .inr ?_
    · exact (haside.tasks task htask).imp_right fun hnew => hnew.1.evolve h.chain he le_rfl
    · obtain ⟨i, hi⟩ := getElem?_of_mem hw
      rw [haside.store]
      rcases haside.views i w hi with ⟨v, hv, hkeeps⟩ | ⟨record, wall, -, -, rfl⟩
      · exact hkeeps.ok (h.views v (mem_of_getElem? hv))
      · trivial

lemma StreamInv.reach {G : StreamState → Action → Prop} (h : streamSystem.Reach G s) :
    StreamInv s := by
  refine h.invariant (fun s hinit => ?_) fun s a s' hinv _ hstep => (hinv.step hstep).1
  cases hinit
  exact .init

/-! ## The chain -/

/-- In every run, with any number of owners, collectors and readers: the attached intervals are in
order and disjoint, their sequence numbers ascend, only the last may be active, the appends of
each add up to its interval, and together they cover everything from the trim offset to the tail.
No publication is undone, and the tail never goes back. -/
theorem stream_chain_in_order (h : streamSystem.Reach System.Free s) :
    s.store.attached.Pairwise (fun a b =>
      a.record.stop ≤ b.start ∧ a.sequence < b.sequence ∧ a.record.state ≠ .active) ∧
    (∀ sn ∈ s.store.attached, sn.start + sn.record.mappings.sum = sn.record.stop) ∧
    (∀ t, s.store.loadTail = some t → ∀ x, t.record.trimOffset ≤ x → x < t.record.stop →
      ∃ sn ∈ s.store.attached, sn.start ≤ x ∧ x < sn.record.stop) ∧
    (∀ q sn, Task.published q (.ok sn) ∈ s.tasks → ∃ q' ∈ s.committed, q'.tail = q.tail) ∧
    (∀ q ∈ s.committed, Kept s.store q) ∧
    ∀ a s', streamSystem.step s a = some s' → s.committed ⊆ s'.committed ∧
      ∀ t, s.store.loadTail = some t →
        ∃ t', s'.store.loadTail = some t' ∧ Reached t.record t'.record := by
  have hinv := StreamInv.reach h
  refine ⟨?_, fun sn hsn => (hinv.chain.rows sn hsn).1.cover, hinv.chain.cover,
    fun q sn => hinv.tasks _, hinv.committed, fun a s' hstep => ?_⟩
  · exact hinv.chain.sorted.imp_of_mem fun ha hb => hinv.chain.order _ ha _ hb
  · obtain ⟨hinv', he⟩ := hinv.step hstep
    refine ⟨he.committed, fun t ht => ?_⟩
    obtain ⟨q, hq, htail⟩ := hinv.tail t ht
    obtain ⟨t', ht', hreached, -⟩ := hinv'.committed q (he.committed hq)
    exact ⟨t', ht', htail ▸ hreached⟩

/-! ## A stream of three chunks

The records of a stream with one owner: ten bytes in the first chunk, then a second one. -/

def sampleCandidate (chunk : ℕ) : StreamChunkRecord :=
  ⟨.wal, ⟨1, chunk⟩, .candidate, none, none, chunk, 1, 0, 1, 0, false, []⟩

def sampleRecord (chunk : ℕ) (state : StreamChunkState) (generation start trim : ℕ)
    (mappings : List ℕ) : StreamChunkRecord :=
  ⟨.wal, ⟨1, chunk⟩, state, some start, some (start + mappings.sum), chunk, 1, generation, 1, trim,
    false, mappings⟩

def runs (task n : ℕ) : List Action := List.replicate n (.run task {})

def leases (view n : ℕ) : List Action := List.replicate n (.lease view {})

open ChunkStream.Action in
def firstChunk : List Action :=
  [reserve (sampleCandidate 0) none] ++ runs 0 3 ++
  [publish ⟨none, sampleRecord 0 .active 1 0 0 [], none, some ⟨sampleCandidate 0, 1⟩⟩] ++
  runs 1 2 ++
  [publish ⟨some ⟨sampleRecord 0 .active 1 0 0 [], 2⟩, sampleRecord 0 .active 2 0 0 [10], none,
    none⟩] ++ runs 2 2

open ChunkStream.Action in
def secondChunk : List Action :=
  firstChunk ++ [register (sampleCandidate 1)] ++ runs 3 4 ++
  [publish ⟨some ⟨sampleRecord 0 .active 2 0 0 [10], 3⟩, sampleRecord 1 .active 3 10 0 [],
    some (sampleRecord 0 .sealed 3 0 0 [10]), some ⟨sampleCandidate 1, 4⟩⟩] ++ runs 4 5

open ChunkStream.Action in
/-- The second chunk stays empty and its key goes to the third. -/
def emptyChunk : List Action :=
  secondChunk ++ [register (sampleCandidate 2)] ++ runs 5 4 ++
  [publish ⟨some ⟨sampleRecord 1 .active 3 10 0 [], 5⟩, sampleRecord 2 .active 4 10 0 [],
    some (sampleRecord 1 .sealed 4 10 0 []), some ⟨sampleCandidate 2, 6⟩⟩] ++ runs 6 5

open ChunkStream.Action in
/-- The first two chunks are trimmed while a reader has the first one pinned, and collected. -/
def pinnedChunk : List Action :=
  secondChunk ++ [pin ⟨sampleRecord 0 .active 2 0 0 [10], 3⟩ 0] ++ leases 0 4 ++
  [publish ⟨some ⟨sampleRecord 1 .active 3 10 0 [], 5⟩, sampleRecord 1 .active 4 10 0 [10], none,
    none⟩] ++ runs 5 4 ++
  [register (sampleCandidate 2)] ++ runs 6 4 ++
  [publish ⟨some ⟨sampleRecord 1 .active 4 10 0 [10], 7⟩, sampleRecord 2 .active 5 20 20 [],
    some (sampleRecord 1 .sealed 5 10 20 [10]), some ⟨sampleCandidate 2, 8⟩⟩] ++ runs 7 5 ++
  [collect ⟨100, none, 128⟩] ++ runs 8 12

/-- Sequence number and interval of each attached record. -/
def StreamState.outline (s : StreamState) : List (ℕ × ℕ × ℕ) :=
  s.store.attached.map fun sn => (sn.sequence, sn.start, sn.record.stop)

theorem stream_chain_in_order_second_chunk :
    ∃ s, streamSystem.Reach System.Free s ∧ s.outline = [(0, 0, 10), (1, 10, 10)] ∧
      ∀ q ∈ s.committed, Kept s.store q := by
  have hinit : streamSystem.init {} := rfl
  have hreach := System.reach_run secondChunk hinit
  exact ⟨_, hreach, by decide +kernel, (stream_chain_in_order hreach).2.2.2.2.1⟩

/-- Sequence numbers are skipped where a successor takes over the key of an empty chunk, and a
collection leaves a gap behind a pinned record. -/
theorem stream_chain_not_consecutive :
    (∃ s, streamSystem.Reach System.Free s ∧ s.outline = [(0, 0, 10), (2, 10, 10)]) ∧
    ∃ s, streamSystem.Reach System.Free s ∧ s.outline = [(0, 0, 10), (2, 20, 20)] := by
  have hinit : streamSystem.init {} := rfl
  exact ⟨⟨_, System.reach_run emptyChunk hinit, by decide +kernel⟩,
    ⟨_, System.reach_run pinnedChunk hinit, by decide +kernel⟩⟩

end CrowDB.ChunkStream
