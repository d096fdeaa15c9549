import CrowDB.BTree.Scan
import CrowDB.Lib.Paging

/-!
# What scans return

A tree is well formed when its memtables are in order and its pages respect their separators.
Its contents are what counts for each key. A forward scan returns a page of the contents that it
asks for, a reverse scan a page of them in descending order. The seek in the first leaf leaves
out the key that equals the prefix when an empty start key is excluded.
-/
namespace CrowDB.BTree
open Lib List Option ScanArgs ScanEntry ScanOut
open Paxos (Bytes)

/-! ## The loop over leaves -/

variable {l1 : List Entry} {loaded : ℕ → Bool} {leaves : List Leaf}

lemma refill_ok {l1' : List Entry} {leaves' : List Leaf}
    (h : refill loaded l1 leaves = .ok (l1', leaves')) :
    l1' ++ leaves'.flatMap Leaf.entries = l1 ++ leaves.flatMap Leaf.entries ∧
      (l1' = [] → leaves' = []) := by
  induction leaves generalizing l1 with
  | nil => cases l1 <;> cases h <;> simp
  | cons _ _ ih =>
    cases l1 with
    | cons => cases h; simp
    | nil =>
      simp only [refill] at h
      split at h
      · exact ih h
      · cases h

lemma refill_loaded (l1 : List Entry) (leaves : List Leaf) :
    ∃ r, refill (fun _ => true) l1 leaves = .ok r := by
  induction leaves generalizing l1 with
  | nil => cases l1 <;> exact ⟨_, rfl⟩
  | cons leaf _ ih =>
    cases l1 with
    | nil => exact ih leaf.entries
    | cons => exact ⟨_, rfl⟩

variable {rest : List Entry}

lemma head?_append_of (h : l1 = [] → rest = []) : (l1 ++ rest).head? = l1.head? := by
  cases l1 with
  | nil => rw [h rfl]; rfl
  | cons => rfl

lemma advance_append (k : Key) (h : l1 = [] → rest = []) :
    advance Entry.key k (l1 ++ rest) = advance Entry.key k l1 ++ rest := by
  cases l1 with
  | nil => rw [h rfl]; rfl
  | cons =>
    simp only [cons_append, advance]
    split <;> rfl

variable {out : ScanOut}

/-- A loop that is not blocked runs over the merge with all leaves in one stream. -/
theorem scanLoop_ok {step : ScanOut → Entry → Bool × ScanOut} {n : ℕ} {l0 : List (List Entry)}
    {res : ScanOut} (h : scanLoop loaded step n l0 l1 leaves out = .ok res) :
    res = loop step (merge Entry.key Entry.slot n
      (l0 ++ [l1 ++ leaves.flatMap Leaf.entries])) out := by
  rw [← mergeLoop_eq_loop]
  induction n generalizing l0 l1 leaves out with
  | zero => cases h; rfl
  | succ _ ih =>
    simp only [scanLoop] at h
    split at h
    · cases h
    next l1' leaves' hrefill =>
      obtain ⟨heq, hnil⟩ := refill_ok hrefill
      have hnil' : l1' = [] → leaves'.flatMap Leaf.entries = [] := fun hl => by rw [hnil hl]; rfl
      have hheads : (l0 ++ [l1 ++ leaves.flatMap Leaf.entries]).filterMap head? =
          (l0 ++ [l1']).filterMap head? := by
        simp only [← heq, filterMap_append, filterMap_cons, head?_append_of hnil']
      simp only [mergeLoop, hheads]
      split at h
      next hpick =>
        cases h
        rw [hpick]
      next e hpick =>
        rw [hpick]
        simp only
        split at h
        next hgo =>
          rw [if_pos hgo, ih h, map_append, map_singleton, ← heq, advance_append e.key hnil']
        next hstop =>
          rw [if_neg hstop]
          exact (Except.ok.inj h).symm

lemma scanLoop_loaded (step : ScanOut → Entry → Bool × ScanOut) (n : ℕ)
    (l0 : List (List Entry)) (l1 : List Entry) (leaves : List Leaf) (out : ScanOut) :
    ∃ res, scanLoop (fun _ => true) step n l0 l1 leaves out = .ok res := by
  induction n generalizing l0 l1 leaves out with
  | zero => exact ⟨out, rfl⟩
  | succ _ ih =>
    obtain ⟨⟨l1', leaves'⟩, hrefill⟩ := refill_loaded l1 leaves
    simp only [scanLoop, hrefill]
    split
    · exact ⟨out, rfl⟩
    · split
      · exact ih _ _ _ _
      · exact ⟨_, rfl⟩

/-! ## The loop body -/

/-- The keys that a forward scan asks for. -/
def ScanArgs.asks (a : ScanArgs) (range : KeyRange) (key : Key) : Bool :=
  range.contains key && a.started key && a.keyPrefix.isPrefixOf key
    && (a.endKey.isEmpty || decide (key < a.endKey))

def Entry.live (e : Entry) : Bool := e.cell.value.isSome

/-- The live entries among some, as a scan shows them. -/
def ScanArgs.showAll (a : ScanArgs) (es : List Entry) : List ScanEntry :=
  es.filterMap fun e => e.cell.value.map (a.shown e)

/-- The output with the rest of a page behind what it has. -/
def ScanOut.extend (out : ScanOut) (limit budget : ℕ) (es : List ScanEntry) : ScanOut :=
  { entries := out.entries ++
    (takePage ScanEntry.size limit budget out.entries.length out.bytes es).1
    bytes := out.bytes
      + ((takePage ScanEntry.size limit budget out.entries.length out.bytes es).1.map
        ScanEntry.size).sum
    truncated := out.truncated
      || (takePage ScanEntry.size limit budget out.entries.length out.bytes es).2 }

lemma ScanOut.extend_nil (out : ScanOut) (limit budget : ℕ) :
    out.extend limit budget [] = out := by
  simp [extend, takePage]

variable {e : ScanEntry} {budget limit : ℕ}

lemma ScanOut.extend_cons_fits (es : List ScanEntry)
    (h : fits size limit budget out.entries.length out.bytes e = true) :
    out.extend limit budget (e :: es) = (out.push e).extend limit budget es := by
  simp [extend, takePage, h, push, Nat.add_assoc]

lemma ScanOut.extend_cons_full (es : List ScanEntry)
    (h : fits size limit budget out.entries.length out.bytes e = false) :
    out.extend limit budget (e :: es) = { out with truncated := true } := by
  simp [extend, takePage, h]

lemma fits_eq_false_iff {count used : ℕ} : fits size limit budget count used e = false ↔
      (limit ≠ 0 ∧ limit ≤ count) ∨ (budget ≠ 0 ∧ 0 < count ∧ budget < used + e.size) := by
  simp only [fits, Bool.and_eq_false_iff, Bool.or_eq_false_iff, beq_eq_false_iff_ne,
    decide_eq_false_iff_not, not_lt, not_le]
  constructor
  · rintro (h | ⟨⟨h1, h2⟩, h3⟩)
    · exact .inl h
    · exact .inr ⟨h1, Nat.pos_of_ne_zero h2, h3⟩
  · rintro (h | ⟨h1, h2, h3⟩)
    · exact .inl h
    · exact .inr ⟨⟨h1, h2.ne'⟩, h3⟩

/-- The two comparisons of a scan, the limit first. -/
theorem ite_fits {β : Type*} {count used : ℕ} (full next : β) :
    (if limit ≠ 0 ∧ limit ≤ count then full
      else if budget ≠ 0 ∧ 0 < count ∧ budget < used + e.size then full else next) =
      if fits size limit budget count used e then next else full := by
  cases hfits : fits size limit budget count used e with
  | true =>
    have hneg := mt fits_eq_false_iff.mpr (by rw [hfits]; decide)
    rw [not_or] at hneg
    rw [if_neg hneg.1, if_neg hneg.2, if_pos rfl]
  | false =>
    rw [if_neg Bool.false_ne_true]
    by_cases hlimit : limit ≠ 0 ∧ limit ≤ count
    · rw [if_pos hlimit]
    · rw [if_neg hlimit, if_pos ((fits_eq_false_iff.mp hfits).resolve_left hlimit)]

/-- Behind a key that is past a prefix no key has the prefix. -/
theorem lt_append_of_lt {p k : Key} (hlt : p < k) (hp : ¬ p <+: k) (t : Key) : p ++ t < k := by
  induction p generalizing k with
  | nil => exact absurd nil_prefix hp
  | cons _ _ ih =>
    cases k with
    | nil => cases hlt
    | cons =>
      rcases cons_lt_cons_iff.mp hlt with h | ⟨rfl, h⟩
      · exact cons_lt_cons_iff.mpr (.inl h)
      · refine cons_lt_cons_iff.mpr (.inr ⟨rfl, ih h fun hpre => hp ?_⟩)
        exact cons_prefix_cons.mpr ⟨rfl, hpre⟩

variable {es : List Entry}

section Step
variable {range : KeyRange} {a : ScanArgs} {out : ScanOut} {e : Entry}

/-- A scan skips a key that it does not ask for, or stops there because no later key is asked
for. -/
theorem scanStep_not_asked (out : ScanOut) (h : a.asks range e.key = false) :
    scanStep range a out e = (true, out) ∨
      scanStep range a out e = (false, out) ∧ ∀ k, e.key < k → a.asks range k = false := by
  simp only [scanStep]
  split
  next hpast =>
    refine .inr ⟨rfl, fun k hk => ?_⟩
    have hnot : ¬ a.keyPrefix <+: k := by
      rintro ⟨t, rfl⟩
      have hpre : ¬ a.keyPrefix <+: e.key := by
        intro hpre
        have hmatch := isPrefixOf_iff_prefix.mpr hpre
        simp [hmatch] at hpast
      exact absurd hk (lt_append_of_lt hpast.2.2 hpre t).asymm
    simp [asks, hnot]
  · split
    next hend =>
      refine .inr ⟨rfl, fun k hk => ?_⟩
      have hle : a.endKey ≤ k := hend.2.trans hk.le
      simp [asks, hend.1, hle]
    next hend =>
      simp only [consider]
      split
      · exact .inl rfl
      · split
        next hafter =>
          refine .inr ⟨rfl, fun k hk => ?_⟩
          have hk' : range.atOrAfterEnd k = true := by
            simp only [KeyRange.atOrAfterEnd, Option.any_eq_true, decide_eq_true_eq] at hafter ⊢
            obtain ⟨stop, hstop, hle⟩ := hafter
            exact ⟨stop, hstop, hle.trans hk.le⟩
          simp [asks, KeyRange.contains, hk']
        · split
          · exact .inl rfl
          · split
            · exact .inl rfl
            · -- all checks have passed, so the key is asked for
              simp_all [asks, KeyRange.contains]

lemma scanStep_asked (h : a.asks range e.key = true) : scanStep range a out e =
      match e.cell.value with
      | none => (true, out)
      | some value =>
        if fits size a.limit a.byteBudget out.entries.length out.bytes (a.shown e value)
        then (true, out.push (a.shown e value)) else (false, { out with truncated := true }) := by
  simp only [asks, KeyRange.contains, Bool.and_eq_true, Bool.not_eq_true',
    Bool.or_eq_true, List.isEmpty_iff, decide_eq_true_eq] at h
  obtain ⟨⟨⟨⟨hbefore, hafter⟩, hstart⟩, hpre⟩, hend⟩ := h
  have hend' : ¬ (a.endKey ≠ [] ∧ a.endKey ≤ e.key) := by
    rintro ⟨hne, hle⟩
    exact (hend.resolve_left hne).not_ge hle
  simp only [scanStep, consider, hbefore, hafter, hstart, hpre, hend', Bool.not_true,
    Bool.false_eq_true, false_and, and_false]
  cases e.cell.value with
  | none => rfl
  | some => exact ite_fits _ _

/-- The loop collects the page of what the scan asks for. -/
theorem loop_scanStep (hasc : Ascending Entry.key es) (out : ScanOut) :
    loop (scanStep range a) es out = out.extend a.limit a.byteBudget
      (a.showAll (es.filter fun e => a.asks range e.key)) := by
  induction es generalizing out with
  | nil => exact (out.extend_nil _ _).symm
  | cons e _ ih =>
    obtain ⟨hlt, htail⟩ := pairwise_cons.mp hasc
    simp only [loop]
    cases hasks : a.asks range e.key with
    | false =>
      rw [filter_cons_of_neg (by simp [hasks])]
      rcases scanStep_not_asked out hasks with hstep | ⟨hstep, hlater⟩
      · rw [hstep]
        exact ih htail out
      · rw [hstep, filter_eq_nil_iff.mpr fun b hb => by simp [hlater b.key (hlt b hb)]]
        exact (out.extend_nil _ _).symm
    | true =>
      rw [filter_cons_of_pos (by simp [hasks]), scanStep_asked hasks]
      cases hv : e.cell.value with
      | none =>
        simp only [showAll, filterMap_cons, hv]
        exact ih htail out
      | some value =>
        simp only [showAll, filterMap_cons, hv, map_some]
        cases hfits : fits size a.limit a.byteBudget out.entries.length out.bytes
          (a.shown e value) with
        | true =>
          rw [extend_cons_fits _ hfits]
          exact ih htail _
        | false =>
          rw [extend_cons_full _ hfits]
          rfl

end Step

/-! ## Forward scans -/

structure Tree.Ok (t : Tree) : Prop where
  memtables : ∀ m ∈ t.memtables, Ascending Entry.key m
  root : ∀ root, t.root = some root → root.Within none none

def Tree.contents (t : Tree) : List Entry := Lib.contents Entry.key Entry.slot t.streams

namespace Tree.Ok
variable {t : Tree} {a : ScanArgs}

lemma entries_ascending (h : t.Ok) : Ascending Entry.key t.entries := by
  unfold entries
  split
  · exact Pairwise.nil
  next root hroot => exact (h.root root hroot).ascending

lemma streams_ascending (h : t.Ok) : ∀ s ∈ t.streams, Ascending Entry.key s :=
  forall_mem_append.mpr ⟨h.memtables, forall_mem_singleton.mpr h.entries_ascending⟩

lemma contents_ascending (h : t.Ok) : Ascending Entry.key t.contents :=
  Lib.contents_ascending h.streams_ascending

section
variable (h : t.Ok)
  (hstart : a.hasStartBound = true → a.startInclusive = false → a.startAfter = [] →
    a.keyPrefix = [])
include h hstart

/-- The walk along the leaves shows everything that is asked for, unless an empty start key is
excluded and the descent goes to the prefix. -/
theorem filter_leafChain : Ascending Entry.key ((t.leafChain a).flatMap Leaf.entries) ∧
    ((t.leafChain a).flatMap Leaf.entries).filter (fun e => a.asks t.range e.key) =
      t.entries.filter fun e => a.asks t.range e.key := by
  have hasc := h.entries_ascending
  simp only [leafChain, entries] at hasc ⊢
  cases hroot : t.root with
  | none => exact ⟨Pairwise.nil, rfl⟩
  | some root =>
    simp only [hroot] at hasc
    obtain ⟨front, heq, hfront⟩ := Page.leavesFrom_eq a.descendKey (h.root root hroot)
    -- what the descent leaves out is before the start key or before the prefix
    have hlow : ∀ k, k < a.descendKey → a.asks t.range k = false := by
      intro k hk
      simp only [descendKey] at hk
      split at hk
      · have hnot : ¬ a.keyPrefix <+: k := fun ⟨u, hu⟩ =>
          absurd hk (not_lt.mpr (hu ▸ le_append_left))
        simp [asks, hnot]
      next hne =>
        have hs : a.started k = false := by
          have hb : a.bounded = true := by simp [bounded, hne]
          simp only [started, hb]
          split
          · exact decide_eq_false hk.not_ge
          · exact decide_eq_false hk.asymm
        simp [asks, hs]
    have hexact : (a.bounded && !a.startInclusive) = true → a.descendKey ≠ [] →
        a.asks t.range a.descendKey = false := by
      intro hexcl hdesc
      simp only [Bool.and_eq_true, Bool.not_eq_true'] at hexcl
      by_cases hempty : a.startAfter = []
      · have hbound : a.hasStartBound = true := by simpa [bounded, hempty] using hexcl.1
        have := hstart hbound hexcl.2 hempty
        simp [descendKey, hempty, this] at hdesc
      · have hs : a.started a.descendKey = false := by
          simp [started, hexcl.1, hexcl.2, descendKey, hempty]
        simp [asks, hs]
    simp only
    rw [heq] at hasc ⊢
    have hfrontnil : front.filter (fun e => a.asks t.range e.key) = [] :=
      filter_eq_nil_iff.mpr fun e he => by simp [hlow e.key (hfront e he)]
    rw [filter_append, hfrontnil, nil_append]
    have htail := (pairwise_append.mp hasc).2.1
    cases hleaves : root.leavesFrom a.descendKey with
    | nil => exact ⟨Pairwise.nil, rfl⟩
    | cons =>
      rw [hleaves] at htail
      simp only [flatMap_cons]
      refine ⟨htail.sublist (Sublist.append_right filter_sublist _), ?_⟩
      rw [filter_append, filter_append, List.filter_filter]
      congr 1
      refine filter_congr fun e _ => ?_
      cases hasks : a.asks t.range e.key with
      | false => rfl
      | true =>
        rw [Bool.true_and, Bool.or_eq_true]
        by_cases hd : a.descendKey = []
        · exact .inl (by simp [hd])
        · have hle : a.descendKey ≤ e.key := by
            by_contra hlt
            rw [hlow e.key (not_le.mp hlt)] at hasks
            cases hasks
          refine .inr ?_
          split
          next hexcl =>
            refine decide_eq_true (lt_of_le_of_ne hle fun heq => ?_)
            rw [← heq, hexact hexcl hd] at hasks
            cases hasks
          · exact decide_eq_true hle

/-- The walk merges what the tree holds, as far as it is asked for. -/
theorem filter_merged {n : ℕ}
    (hn : totalLength (t.cursors a ++ [(t.leafChain a).flatMap Leaf.entries]) ≤ n) :
    Ascending Entry.key (merge Entry.key Entry.slot n
      (t.cursors a ++ [(t.leafChain a).flatMap Leaf.entries])) ∧
    (merge Entry.key Entry.slot n (t.cursors a ++ [(t.leafChain a).flatMap Leaf.entries])).filter
      (fun e => a.asks t.range e.key) = t.contents.filter fun e => a.asks t.range e.key := by
  obtain ⟨hchain, hsame⟩ := h.filter_leafChain hstart
  have hs : ∀ s ∈ t.cursors a ++ [(t.leafChain a).flatMap Leaf.entries], Ascending Entry.key s :=
    forall_mem_append.mpr ⟨forall_mem_map.mpr fun m hm => (h.memtables m hm).filter _,
      forall_mem_singleton.mpr hchain⟩
  rw [merge_eq_contents hs hn]
  refine ⟨Lib.contents_ascending hs, ?_⟩
  rw [← contents_filter hs (a.asks t.range), contents,
    ← contents_filter h.streams_ascending (a.asks t.range)]
  congr 1
  simp only [streams, cursors, map_append, List.map_map, map_singleton, hsame]
  congr 1
  refine map_congr_left fun m _ => ?_
  simp only [Function.comp_apply, List.filter_filter]
  refine filter_congr fun e _ => ?_
  cases hs : a.started e.key <;> simp [asks, hs]

/-- A walk that was not blocked returns the page of the contents that the scan asks for. -/
theorem tryScanNoLoad_ok (hout : t.tryScanNoLoad loaded a = .ok out) :
    out = extend {} a.limit a.byteBudget
      (a.showAll (t.contents.filter fun e => a.asks t.range e.key)) := by
  simp only [tryScanNoLoad] at hout
  split at hout
  · cases hout
  · obtain ⟨hasc, hfilter⟩ := h.filter_merged hstart (Nat.le_succ _)
    rw [scanLoop_ok hout, nil_append, loop_scanStep hasc, hfilter]

end

lemma descent_loaded (t : Tree) (key : Key) :
    t.root.bind (Page.descent (fun _ => true) key) = none := by
  cases t.root with
  | none => rfl
  | some root => exact Page.descent_loaded key root

lemma scan_eq (h : t.Ok)
    (hstart : a.hasStartBound = true → a.startInclusive = false → a.startAfter = [] →
      a.keyPrefix = []) :
    t.scan a = extend {} a.limit a.byteBudget
      (a.showAll (t.contents.filter fun e => a.asks t.range e.key)) := by
  obtain ⟨out, hout⟩ := scanLoop_loaded (scanStep t.range a)
    (totalLength (t.cursors a ++ [(t.leafChain a).flatMap Leaf.entries]) + 1) (t.cursors a) []
    (t.leafChain a) {}
  have htry : t.tryScanNoLoad (fun _ => true) a = .ok out := by
    simp only [tryScanNoLoad, descent_loaded]
    exact hout
  rw [scan, htry]
  exact h.tryScanNoLoad_ok hstart htry

end Tree.Ok

/-! ## Reverse scans -/

/-- The keys that a reverse scan asks for. -/
def asksReverse (range : KeyRange) (beginKey key : Key) : Bool :=
  range.contains key && (beginKey.isEmpty || decide (beginKey ≤ key))

namespace Tree.Ok
variable {t : Tree}

lemma lastBelow_ok (h : t.Ok) (loaded : ℕ → Bool) (bound : Below) :
    t.lastBelow loaded bound = .ok (t.contents.filter fun e => bound.admits e.key).getLast? ∨
      ∃ page, loaded page = false ∧ t.lastBelow loaded bound = .error page := by
  have hlast : pick Entry.key Entry.slot behind
      ((t.memtables.filterMap fun m => (m.filter fun e => bound.admits e.key).getLast?) ++
        (t.entries.filter fun e => bound.admits e.key).getLast?.toList) =
      (t.contents.filter fun e => bound.admits e.key).getLast? := by
    have hs : ∀ s ∈ t.streams.map fun s => s.filter fun e => bound.admits e.key,
        Ascending Entry.key s := by
      intro s hs
      obtain ⟨m, hm, rfl⟩ := mem_map.mp hs
      exact (h.streams_ascending m hm).filter _
    rw [contents, ← contents_filter h.streams_ascending bound.admits, ← pick_lasts hs]
    simp only [streams, filterMap_append, filterMap_map]
    congr 1
  cases hroot : t.root with
  | none =>
    refine .inl ?_
    have hnil : t.entries = [] := by rw [entries, hroot]
    rw [hnil] at hlast
    simp only [filter_nil, getLast?_nil, toList_none, append_nil] at hlast
    rw [lastBelow, hroot, ← hlast]
    rfl
  | some root =>
    have hentries : t.entries = root.entries := by rw [entries, hroot]
    rw [hentries] at hlast
    rcases Page.predecessor_eq loaded bound (h.root root hroot) with hp | ⟨page, hpage, hp⟩
    · refine .inl ?_
      rw [lastBelow, hroot, elim_some, hp, ← hlast]
      cases (root.entries.filter fun e => bound.admits e.key).getLast? with
      | none => simp [Search.of]
      | some => rfl
    · refine .inr ⟨page, hpage, ?_⟩
      rw [lastBelow, hroot, elim_some, hp]

lemma lastBelow_loaded (h : t.Ok) (bound : Below) : t.lastBelow (fun _ => true) bound =
      .ok (t.contents.filter fun e => bound.admits e.key).getLast? :=
  (h.lastBelow_ok _ bound).resolve_right fun ⟨_, hpage, _⟩ => by cases hpage

end Tree.Ok

/-- The elements before one of an ascending list are those with a smaller key. -/
theorem filter_before {α : Type*} {key : α → Key} {l front back : List α} {a : α}
    (h : Ascending key l) (hl : l = front ++ a :: back) :
    l.filter (fun e => decide (key e < key a)) = front := by
  subst hl
  obtain ⟨-, hback, hcross⟩ := pairwise_append.mp h
  obtain ⟨ha, -⟩ := pairwise_cons.mp hback
  have hnone : back.filter (fun e => decide (key e < key a)) = [] :=
    filter_eq_nil_iff.mpr fun e he => by simpa using (ha e he).le
  have hall : front.filter (fun e => decide (key e < key a)) = front :=
    filter_eq_self.mpr fun e he => decide_eq_true (hcross e he a mem_cons_self)
  rw [filter_append, filter_cons_of_neg (by simp), hnone, hall, append_nil]

/-- Below the last of the entries that a bound admits are the others. -/
theorem filter_below_last (hasc : Ascending Entry.key es) {bound : Below} {e : Entry}
    (h : (es.filter fun e => bound.admits e.key).getLast? = some e) :
    es.filter (fun e => bound.admits e.key) =
      es.filter (fun b => Below.admits (some (e.key, false)) b.key) ++ [e] := by
  obtain ⟨front, hfront⟩ := getLast?_eq_some_iff.mp h
  have hadm : bound.admits e.key = true := (mem_filter.mp (mem_of_getLast? h)).2
  have hlower : ∀ k, k < e.key → bound.admits k = true := by
    intro k hk
    cases bound with
    | none => rfl
    | some =>
      simp only [Below.admits, all_some] at hadm ⊢
      split at hadm
      next hincl =>
        rw [if_pos hincl]
        exact decide_eq_true (hk.le.trans (of_decide_eq_true hadm))
      next hincl =>
        rw [if_neg hincl]
        exact decide_eq_true (hk.trans (of_decide_eq_true hadm))
  have hbelow : es.filter (fun b => Below.admits (some (e.key, false)) b.key) =
      (es.filter fun e => bound.admits e.key).filter fun b => decide (b.key < e.key) := by
    rw [List.filter_filter]
    refine filter_congr fun b _ => ?_
    by_cases hlt : b.key < e.key
    · rw [hlower _ hlt]
      simp [Below.admits]
    · simp [Below.admits, hlt]
  rw [hbelow, filter_before (hasc.filter _) hfront]
  exact hfront

section Search
variable (hasc : Ascending Entry.key es) {bound : Below} {e : Entry} {asks : Entry → Bool}
  (hlast : (es.filter fun e => bound.admits e.key).getLast? = some e)
include hasc hlast

lemma length_below_last : (es.filter fun b => Below.admits (some (e.key, false)) b.key).length <
    (es.filter fun e => bound.admits e.key).length := by
  rw [filter_below_last hasc hlast, length_append]
  exact Nat.lt_succ_self _

/-- A search passes over what is not asked for. -/
theorem filter_below_skip (h : asks e = false) :
    (es.filter fun e => bound.admits e.key).filter asks =
      (es.filter fun b => Below.admits (some (e.key, false)) b.key).filter asks := by
  rw [filter_below_last hasc hlast, filter_append, filter_cons_of_neg (by simp [h]), filter_nil,
    append_nil]

lemma getLast?_below (h : asks e = true) :
    ((es.filter fun e => bound.admits e.key).filter asks).getLast? = some e := by
  rw [filter_below_last hasc hlast, filter_append, filter_cons_of_pos h, filter_nil,
    getLast?_append, getLast?_singleton, some_or]

end Search

lemma KeyRange.before_of_le {range : KeyRange} {k k' : Key} (h : range.before k = true)
    (hle : k' ≤ k) : range.before k' = true := by
  simp only [before, Option.any_eq_true, decide_eq_true_eq] at h ⊢
  obtain ⟨start, hstart, hlt⟩ := h
  exact ⟨start, hstart, hle.trans_lt hlt⟩

namespace Tree
variable {t : Tree}

/-- What a reverse scan may return below a bound, in ascending order. -/
def wanted (t : Tree) (beginKey : Key) (bound : Below) : List Entry :=
  (t.contents.filter fun e => bound.admits e.key).filter fun e =>
    asksReverse t.range beginKey e.key && e.live

lemma Ok.wanted_below_last (h : t.Ok) {beginKey : Key} {bound : Below} {e : Entry}
    (hlast : (t.wanted beginKey bound).getLast? = some e) :
    t.wanted beginKey bound = t.wanted beginKey (some (e.key, false)) ++ [e] := by
  have hswap : ∀ b : Below, t.wanted beginKey b =
      (t.contents.filter fun e => asksReverse t.range beginKey e.key && e.live).filter
        fun e => b.admits e.key := by
    intro b
    rw [wanted, List.filter_filter, List.filter_filter]
    exact filter_congr fun e _ => Bool.and_comm _ _
  rw [hswap] at hlast
  rw [hswap, hswap]
  exact filter_below_last (h.contents_ascending.filter _) hlast

/-- The search skips what the scan does not ask for. -/
theorem Ok.seekReverseGuarded_eq (h : t.Ok) (beginKey : Key) (n : ℕ) (bound : Below)
    (hn : (t.contents.filter fun e => bound.admits e.key).length < n) :
    t.seekReverseGuarded beginKey n bound =
      (t.wanted beginKey bound).getLast?.bind fun e => e.cell.value.map fun v => (e, v) := by
  induction n generalizing bound with
  | zero => omega
  | succ n ih =>
    rw [seekReverseGuarded, h.lastBelow_loaded]
    cases hlast : (t.contents.filter fun e => bound.admits e.key).getLast? with
    | none =>
      rw [wanted, getLast?_eq_none_iff.mp hlast]
      rfl
    | some e =>
      have hasc := h.contents_ascending
      have hmax := ((hasc.filter _).getLast?_eq_some_iff.mp hlast).2
      have hlen := (length_below_last hasc hlast).trans_le (Nat.le_of_lt_succ hn)
      dsimp only
      split
      next hstop =>
        -- every key in question is before the interval
        have hnil : t.wanted beginKey bound = [] := by
          refine filter_eq_nil_iff.mpr fun b hb => ?_
          have hle := hmax b hb
          have hno : asksReverse t.range beginKey b.key = false := by
            rcases hstop with ⟨hne, hlt⟩ | hbefore
            · simp [asksReverse, hne, hle.trans_lt hlt]
            · simp [asksReverse, KeyRange.contains, KeyRange.before_of_le hbefore hle]
          simp [hno]
        rw [hnil]
        rfl
      next hgo =>
        rw [not_or] at hgo
        split
        next hafter =>
          rw [ih _ hlen, wanted, wanted, filter_below_skip hasc hlast
            (by simp [asksReverse, KeyRange.contains, hafter])]
        next hafter =>
          split
          next hnone =>
            rw [ih _ hlen, wanted, wanted,
              filter_below_skip hasc hlast (by simp [Entry.live, hnone])]
          next value hsome =>
            have hasks : (asksReverse t.range beginKey e.key && e.live) = true := by
              have hbegin : beginKey = [] ∨ beginKey ≤ e.key := by
                by_cases hne : beginKey = []
                · exact .inl hne
                · exact .inr (not_lt.mp fun hlt => hgo.1 ⟨hne, hlt⟩)
              simp [asksReverse, KeyRange.contains, hgo.2, hafter, hbegin, Entry.live, hsome]
            rw [wanted, getLast?_below hasc hlast hasks, bind_some, hsome]
            rfl

lemma Ok.scanReverseLoop_eq (h : t.Ok) (beginKey : Key) (limit byteBudget : ℕ) {fuel : ℕ}
    (hfuel : t.contents.length < fuel) (n : ℕ) (bound : Below) (out : ScanOut)
    (hn : (t.wanted beginKey bound).length < n) :
    t.scanReverseLoop beginKey limit byteBudget fuel n bound out = out.extend limit byteBudget
      (showAll ⟨[], [], [], limit, byteBudget, false, false, false⟩
        (t.wanted beginKey bound).reverse) := by
  induction n generalizing bound out with
  | zero => omega
  | succ n ih =>
    have hlen := (length_filter_le (fun e => bound.admits e.key) t.contents).trans_lt hfuel
    rw [scanReverseLoop, h.seekReverseGuarded_eq beginKey fuel bound hlen]
    cases hlast : (t.wanted beginKey bound).getLast? with
    | none =>
      rw [getLast?_eq_none_iff.mp hlast]
      exact (out.extend_nil _ _).symm
    | some e =>
      have hsplit := h.wanted_below_last hlast
      have hlive : e.live = true :=
        (Bool.and_eq_true_iff.mp (mem_filter.mp (mem_of_getLast? hlast)).2).2
      obtain ⟨value, hvalue⟩ := isSome_iff_exists.mp hlive
      have hlen' : (t.wanted beginKey (some (e.key, false))).length < n := by
        have := congrArg length hsplit
        simp only [length_append, length_singleton] at this
        omega
      rw [hsplit, reverse_append, reverse_singleton, singleton_append]
      simp only [bind_some, hvalue, map_some, showAll, filterMap_cons,
        shown, Bool.false_eq_true, if_false]
      cases hfits : fits size limit byteBudget out.entries.length out.bytes
        ⟨e.key, e.slot, value⟩ with
      | true =>
        have hneg := mt fits_eq_false_iff.mpr (by rw [hfits]; decide)
        rw [length_pos_iff] at hneg
        rw [if_neg hneg, extend_cons_fits _ hfits, ih _ _ hlen']
        rfl
      | false =>
        have hpos := fits_eq_false_iff.mp hfits
        rw [length_pos_iff] at hpos
        rw [if_pos hpos, extend_cons_full _ hfits]

lemma Ok.scanReverse_eq (h : t.Ok) (start : Below) (beginKey : Key) (limit byteBudget : ℕ) :
    t.scanReverse start beginKey limit byteBudget = extend {} limit byteBudget
      (showAll { limit := limit, byteBudget := byteBudget }
        (t.wanted beginKey start).reverse) := by
  have hlen : t.contents.length ≤ totalLength t.streams := length_merge_le _ _
  have hwanted : (t.wanted beginKey start).length ≤ t.contents.length :=
    (length_filter_le _ _).trans (length_filter_le _ _)
  exact h.scanReverseLoop_eq beginKey limit byteBudget (by omega) _ start {} (by omega)

end Tree

/-! ## Pages of what a scan shows -/

lemma ScanOut.extend_page (limit budget : ℕ) (es : List ScanEntry) :
    ((extend {} limit budget es).entries, (extend {} limit budget es).truncated) =
      page size limit budget es := by
  simp [extend, page]

lemma showAll_filter (a : ScanArgs) (es : List Entry) (p : Key → Bool) :
    a.showAll (es.filter fun e => p e.key) = (a.showAll es).filter fun e => p e.key := by
  rw [showAll, showAll, filterMap_filter, filter_filterMap]
  congr 1
  funext e
  cases hv : e.cell.value <;> by_cases hp : p e.key = true <;>
    simp [shown, Option.filter]

lemma mem_showAll {a : ScanArgs} {x : ScanEntry} (h : x ∈ a.showAll es) :
    ∃ e ∈ es, e.key = x.key := by
  obtain ⟨e, he, hx⟩ := mem_filterMap.mp h
  obtain ⟨value, -, rfl⟩ := map_eq_some_iff.mp hx
  exact ⟨e, he, rfl⟩

lemma showAll_ascending (a : ScanArgs) (h : Ascending Entry.key es) :
    Ascending key (a.showAll es) := by
  induction es with
  | nil => exact Pairwise.nil
  | cons e _ ih =>
    obtain ⟨hlt, htail⟩ := pairwise_cons.mp h
    simp only [showAll, filterMap_cons]
    cases hv : e.cell.value with
    | none => exact ih htail
    | some =>
      refine pairwise_cons.mpr ⟨fun x hx => ?_, ih htail⟩
      obtain ⟨b, hb, hkey⟩ := mem_showAll hx
      exact hkey ▸ hlt b hb

/-- The elements behind one of an ascending list are those with a greater key. -/
theorem filter_behind {l front back : List ScanEntry} {a : ScanEntry}
    (h : Ascending key l) (hl : l = front ++ a :: back) :
    l.filter (fun e => decide (a.key < e.key)) = back := by
  subst hl
  obtain ⟨-, hback, hcross⟩ := pairwise_append.mp h
  obtain ⟨ha, -⟩ := pairwise_cons.mp hback
  have hfront : front.filter (fun e => decide (a.key < e.key)) = [] :=
    filter_eq_nil_iff.mpr fun e he => by simpa using (hcross e he a mem_cons_self).le
  have hall : back.filter (fun e => decide (a.key < e.key)) = back :=
    filter_eq_self.mpr fun e he => decide_eq_true (ha e he)
  rw [filter_append, filter_cons_of_neg (by simp), hfront, hall, nil_append]

end CrowDB.BTree
