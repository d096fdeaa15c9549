import CrowDB.BTree.ScanSpec

/-!
# Scans that load pages asynchronously

An asynchronous scan walks the resident pages, loads the page it is blocked at and tries again.
The reverse scan keeps what it has found and takes up the walk behind it with what is left of
its limit and budget. The forward scan is written to do the same, but a blocked walk returns
before it has set its count, so what it has collected is dropped and the scan starts afresh.
-/
namespace CrowDB.BTree
open Lib List Option ScanEntry
open Paxos (Bytes)

/-- The pages that are not resident. -/
abbrev Cold := List ℕ

def Cold.loaded (cold : Cold) (page : ℕ) : Bool := !cold.contains page

def Cold.load (cold : Cold) (page : ℕ) : Cold := cold.filter (· != page)

/-- `make_resume_after`. -/
def makeResumeAfter (startAfter : Key) (lastKey : Option Key) : Key :=
  match lastKey with
  | some key => if key.isEmpty then startAfter else key
  | none => startAfter

def payloadBytes (packed : List ScanEntry) : ℕ := (packed.map ScanEntry.size).sum

/-- The part of the budget that is left; zero stands for no budget. -/
def remainingBudget (byteBudget used : ℕ) : ℕ := if byteBudget ≠ 0 then byteBudget - used else 0

def remainingLimit (limit count : ℕ) : ℕ := if count < limit then limit - count else 0

namespace Tree

/-! ## Forward -/

/-- `scan_async_attempt`, with the pages that are left to load as its fuel. The count of a blocked
walk is zero. -/
def scanAsyncAttempt (t : Tree) (a : ScanArgs) : ℕ → Cold → Key → ℕ → List ScanEntry → Option Key →
    ℕ → Option (List ScanEntry × Bool)
  | 0, _, _, _, _, _, _ => none
  | n + 1, cold, startAfter, limit, accumulated, lastKey, accumulatedCount =>
    if a.byteBudget ≠ 0 ∧ a.byteBudget ≤ payloadBytes accumulated ∧ 0 < accumulatedCount then
      some (accumulated, true)
    else match t.tryScanNoLoad cold.loaded { a with
        startAfter := startAfter
        limit := limit
        byteBudget := remainingBudget a.byteBudget (payloadBytes accumulated)
        hasStartBound := false
        startInclusive := false } with
      | .ok out => some (accumulated ++ out.entries, out.truncated)
      | .error page => t.scanAsyncAttempt a n (cold.load page) (makeResumeAfter startAfter lastKey)
          (remainingLimit limit accumulatedCount) accumulated lastKey accumulatedCount

def scanAsync (t : Tree) (a : ScanArgs) (cold : Cold) : Option (List ScanEntry × Bool) :=
  t.scanAsyncAttempt a (cold.length + 1) cold a.startAfter a.limit [] none 0

end Tree

/-! ## Reverse -/

/-- The first key behind all keys with a prefix. -/
def prefixEnd (keyPrefix : Bytes) : Option Key :=
  match keyPrefix.reverse.dropWhile (· == 255) with
  | [] => none
  | byte :: front => some ((byte + 1) :: front).reverse

def ScanArgs.reverseStart (a : ScanArgs) : Below :=
  if a.startAfter ≠ [] then some (a.startAfter, false)
  else if a.endKey ≠ [] then some (a.endKey, false)
  else (prefixEnd a.keyPrefix).map fun key => (key, false)

namespace Tree

/-- The search for the next entry below a bound: what is not asked for and tombstones are passed
over. -/
def seekNext (t : Tree) (loaded : ℕ → Bool) (keyPrefix endKey : Key) :
    ℕ → Below → Except ℕ (Option (Entry × Bytes))
  | 0, _ => .ok none
  | n + 1, bound =>
    match t.lastBelow loaded bound with
    | .error page => .error page
    | .ok none => .ok none
    | .ok (some e) =>
      if t.range.before e.key then .ok none
      else if (endKey ≠ [] ∧ endKey ≤ e.key) ∨ t.range.atOrAfterEnd e.key then
        t.seekNext loaded keyPrefix endKey n (some (e.key, false))
      else if keyPrefix ≠ [] ∧ !keyPrefix.isPrefixOf e.key then
        if e.key < keyPrefix then .ok none
        else t.seekNext loaded keyPrefix endKey n (some (e.key, false))
      else match e.cell.value with
        | none => t.seekNext loaded keyPrefix endKey n (some (e.key, false))
        | some value => .ok (some (e, value))

/-- Enough steps for every search. -/
def fuel (t : Tree) : ℕ := totalLength t.streams + 1

section
variable (t : Tree) (loaded : ℕ → Bool) (a : ScanArgs)

/-- The loop of `try_scan_reverse_no_load`. A blocked walk leaves what it has found. -/
def tryReverseLoop :
    ℕ → Below → ScanOut → Except (ℕ × ScanOut) ScanOut
  | 0, _, out => .ok out
  | n + 1, bound, out =>
    match t.seekNext loaded a.keyPrefix a.endKey t.fuel bound with
    | .error page => .error (page, out)
    | .ok none => .ok out
    | .ok (some (e, value)) =>
      if a.limit ≠ 0 ∧ a.limit ≤ out.entries.length then .ok { out with truncated := true }
      else if a.byteBudget ≠ 0 ∧ 0 < out.entries.length ∧
          a.byteBudget < out.bytes + (a.shown e value).size then
        .ok { out with truncated := true }
      else tryReverseLoop n (some (e.key, false)) (out.push (a.shown e value))

def tryScanReverseNoLoad : Except (ℕ × ScanOut) ScanOut :=
  t.tryReverseLoop loaded a t.fuel a.reverseStart {}

end

section
variable (t : Tree) (a : ScanArgs)

/-- `scan_reverse_async_attempt`. -/
def scanReverseAsyncAttempt : ℕ → Cold → List ScanEntry → Option Key →
    ℕ → Option (List ScanEntry × Bool)
  | 0, _, _, _, _ => none
  | n + 1, cold, accumulated, lastKey, accumulatedCount =>
    if a.byteBudget ≠ 0 ∧ a.byteBudget ≤ payloadBytes accumulated ∧ 0 < accumulatedCount then
      some (accumulated, true)
    else if a.limit ≠ 0 ∧ a.limit ≤ accumulatedCount then some (accumulated, true)
    else match t.tryScanReverseNoLoad cold.loaded { a with
        startAfter := makeResumeAfter a.startAfter lastKey
        limit := remainingLimit a.limit accumulatedCount
        byteBudget := remainingBudget a.byteBudget (payloadBytes accumulated) } with
      | .ok out => some (accumulated ++ out.entries, out.truncated)
      | .error (page, out) =>
        if out.entries = [] then
          scanReverseAsyncAttempt n (cold.load page) accumulated lastKey accumulatedCount
        else
          scanReverseAsyncAttempt n (cold.load page) (accumulated ++ out.entries)
            (out.entries.getLast?.map ScanEntry.key) (accumulatedCount + out.entries.length)

def scanReverseAsync (cold : Cold) : Option (List ScanEntry × Bool) :=
  t.scanReverseAsyncAttempt a (cold.length + 1) cold [] none 0

/-- `scan_directional_async`. -/
def scanDirectionalAsync (reverse : Bool) (cold : Cold) : Option (List ScanEntry × Bool) :=
  if reverse then t.scanReverseAsync a cold else t.scanAsync a cold

/-- The same scan with every page resident. -/
def scanResident (reverse : Bool) : List ScanEntry × Bool :=
  if reverse then
    match t.tryScanReverseNoLoad (fun _ => true) a with
    | .ok out => (out.entries, out.truncated)
    | .error _ => ([], false)
  else
    let out := t.scan { a with hasStartBound := false, startInclusive := false }
    (out.entries, out.truncated)

end

end Tree

/-! ## Forward scans -/

lemma Cold.length_load_lt {cold : Cold} {page : ℕ} (h : cold.loaded page = false) :
    (cold.load page).length < cold.length := by
  have hmem : page ∈ cold := by simpa [Cold.loaded] using h
  exact length_filter_lt_length_iff_exists.mpr ⟨page, hmem, by simp⟩

variable {leaves : List Leaf}

lemma refill_error {loaded : ℕ → Bool} {l1 : List Entry} {page : ℕ}
    (h : refill loaded l1 leaves = .error page) : loaded page = false := by
  induction leaves generalizing l1 with
  | nil => cases l1 <;> cases h
  | cons _ _ ih =>
    cases l1 with
    | cons => cases h
    | nil =>
      simp only [refill] at h
      split at h
      · exact ih h
      next hl => cases h; simpa using hl

lemma scanLoop_error {loaded : ℕ → Bool} {step : ScanOut → Entry → Bool × ScanOut} {n : ℕ}
    {l0 : List (List Entry)} {l1 : List Entry} {out : ScanOut} {page : ℕ}
    (h : scanLoop loaded step n l0 l1 leaves out = .error page) : loaded page = false := by
  induction n generalizing l0 l1 leaves out with
  | zero => cases h
  | succ _ ih =>
    simp only [scanLoop] at h
    split at h
    next hrefill => cases h; exact refill_error hrefill
    · split at h
      · cases h
      · split at h
        · exact ih h
        · cases h

variable {key : Key}

mutual

theorem Page.descent_eq_some {loaded : ℕ → Bool} {id : ℕ} :
    ∀ {p : Page}, p.descent loaded key = some id → loaded id = false
  | .leaf page _, h => by
    simp only [Page.descent] at h
    split at h
    · cases h
    next hl => cases h; simpa using hl
  | .inner page children, h => by
    simp only [Page.descent] at h
    split at h
    · exact Children.descent_eq_some h
    next hl => cases h; simpa using hl

theorem Children.descent_eq_some {loaded : ℕ → Bool} {id : ℕ} :
    ∀ {c : Children}, c.descent loaded key = some id → loaded id = false
  | .last child, h => Page.descent_eq_some h
  | .cons child sep rest, h => by
    simp only [Children.descent] at h
    split at h
    · exact Page.descent_eq_some h
    · exact Children.descent_eq_some h

end

lemma tryScanNoLoad_error {t : Tree} {loaded : ℕ → Bool} {a : ScanArgs} {page : ℕ}
    (h : t.tryScanNoLoad loaded a = .error page) : loaded page = false := by
  simp only [Tree.tryScanNoLoad] at h
  split at h
  next id hid =>
    cases h
    obtain ⟨root, -, hroot⟩ := bind_eq_some_iff.mp hid
    exact Page.descent_eq_some hroot
  · exact scanLoop_error h

/-- Nothing is kept from a blocked attempt, so the last attempt is the whole scan. -/
theorem Tree.Ok.scanAsync_eq {t : Tree} (h : t.Ok) (a : ScanArgs) (cold : Cold) :
    t.scanAsync a cold = some (t.scanResident a false) := by
  have hattempt : ∀ n (cold : Cold), cold.length < n →
      t.scanAsyncAttempt a n cold a.startAfter a.limit [] none 0 =
        some (t.scanResident a false) := by
    intro n
    induction n with
    | zero => intro cold hn; omega
    | succ _ ih =>
      intro cold hn
      have hbudget : remainingBudget a.byteBudget (payloadBytes []) = a.byteBudget := by
        simp only [remainingBudget, payloadBytes, map_nil, sum_nil]
        split <;> omega
      have hlimit : remainingLimit a.limit 0 = a.limit := by
        simp only [remainingLimit]
        split <;> omega
      rw [Tree.scanAsyncAttempt, if_neg (by simp), hbudget]
      split
      next out htry =>
        have hout := h.tryScanNoLoad_ok (fun hb => by cases hb) htry
        rw [Tree.scanResident, h.scan_eq (fun hb => by cases hb), hout]
        rfl
      next page htry =>
        have hlt := Cold.length_load_lt (tryScanNoLoad_error htry)
        simp only [hlimit]
        exact ih (cold.load page) (by omega)
  exact hattempt _ cold (Nat.lt_succ_self _)

/-! ## The search of reverse scans -/

/-- The keys that a reverse scan with a prefix and an end asks for. -/
def asksBack (range : KeyRange) (keyPrefix endKey key : Key) : Bool :=
  range.contains key && keyPrefix.isPrefixOf key && (endKey.isEmpty || decide (key < endKey))

namespace Tree
variable {t : Tree}

def asked (t : Tree) (keyPrefix endKey : Key) : List Entry :=
  t.contents.filter fun e => asksBack t.range keyPrefix endKey e.key && e.live

lemma Ok.asked_ascending (h : t.Ok) (keyPrefix endKey : Key) :
    Ascending Entry.key (t.asked keyPrefix endKey) :=
  h.contents_ascending.filter _

lemma asked_filter (t : Tree) (keyPrefix endKey : Key) (bound : Below) :
    (t.asked keyPrefix endKey).filter (fun e => bound.admits e.key) =
      (t.contents.filter fun e => bound.admits e.key).filter fun e =>
        asksBack t.range keyPrefix endKey e.key && e.live := by
  rw [asked, List.filter_filter, List.filter_filter]
  exact filter_congr fun e _ => Bool.and_comm _ _

/-- A search that is not blocked ends at the last entry that is asked for. -/
theorem Ok.seekNext_ok (h : t.Ok) (loaded : ℕ → Bool) (keyPrefix endKey : Key) (n : ℕ)
    (bound : Below) (hn : (t.contents.filter fun e => bound.admits e.key).length < n) :
    t.seekNext loaded keyPrefix endKey n bound =
        .ok (((t.asked keyPrefix endKey).filter fun e => bound.admits e.key).getLast?.bind
          fun e => e.cell.value.map fun v => (e, v)) ∨
      ∃ page, loaded page = false ∧ t.seekNext loaded keyPrefix endKey n bound = .error page := by
  induction n generalizing bound with
  | zero => omega
  | succ n ih =>
    rcases h.lastBelow_ok loaded bound with hbelow | ⟨page, hpage, hbelow⟩
    case inr => exact .inr ⟨page, hpage, by rw [seekNext, hbelow]⟩
    rw [seekNext, hbelow, asked_filter]
    cases hlast : (t.contents.filter fun e => bound.admits e.key).getLast? with
    | none =>
      rw [getLast?_eq_none_iff.mp hlast]
      exact .inl rfl
    | some e =>
      have hasc := h.contents_ascending
      have hmax := ((hasc.filter _).getLast?_eq_some_iff.mp hlast).2
      have hskip : (asksBack t.range keyPrefix endKey e.key && e.live) = false →
          t.seekNext loaded keyPrefix endKey n (some (e.key, false)) =
            .ok (((t.contents.filter fun e => bound.admits e.key).filter fun e =>
              asksBack t.range keyPrefix endKey e.key && e.live).getLast?.bind
                fun e => e.cell.value.map fun v => (e, v)) ∨
          ∃ page, loaded page = false ∧
            t.seekNext loaded keyPrefix endKey n (some (e.key, false)) = .error page := by
        intro hno
        rw [filter_below_skip hasc hlast hno, ← asked_filter]
        exact ih _ ((length_below_last hasc hlast).trans_le (Nat.le_of_lt_succ hn))
      -- where the search stops, nothing below is asked for
      have hstop : (∀ k, k ≤ e.key → asksBack t.range keyPrefix endKey k = false) →
          (.ok none : Except ℕ (Option (Entry × Bytes))) =
            .ok (((t.contents.filter fun e => bound.admits e.key).filter fun e =>
              asksBack t.range keyPrefix endKey e.key && e.live).getLast?.bind
                fun e => e.cell.value.map fun v => (e, v)) := by
        intro hno
        rw [filter_eq_nil_iff.mpr fun b hb => by simp [hno b.key (hmax b hb)]]
        rfl
      dsimp only
      split
      next hbefore =>
        refine .inl (hstop fun k hk => ?_)
        simp [asksBack, KeyRange.contains, KeyRange.before_of_le hbefore hk]
      next hbefore =>
        split
        next hafter =>
          refine hskip ?_
          rcases hafter with ⟨hne, hle⟩ | hafter
          · simp [asksBack, hne, hle]
          · simp [asksBack, KeyRange.contains, hafter]
        next hafter =>
          rw [not_or] at hafter
          split
          next hpre =>
            split
            next hlt =>
              refine .inl (hstop fun k hk => ?_)
              have hnot : ¬ keyPrefix <+: k := by
                rintro ⟨u, rfl⟩
                exact absurd (hk.trans_lt hlt) (not_lt.mpr le_append_left)
              simp [asksBack, hnot]
            · refine hskip ?_
              have hfalse : keyPrefix.isPrefixOf e.key = false := by simpa using hpre.2
              rw [asksBack, hfalse, Bool.and_false, Bool.false_and, Bool.false_and]
          next hpre =>
            split
            next hnone => exact hskip (by simp [Entry.live, hnone])
            next value hsome =>
              refine .inl ?_
              have hprefix : keyPrefix.isPrefixOf e.key = true := by
                by_contra hfalse
                rw [Bool.not_eq_true] at hfalse
                refine hpre ⟨?_, by rw [hfalse]; rfl⟩
                rintro rfl
                cases hfalse
              have hend : endKey = [] ∨ e.key < endKey := by
                by_cases hne : endKey = []
                · exact .inl hne
                · exact .inr (not_le.mp fun hle => hafter.1 ⟨hne, hle⟩)
              have hasks : (asksBack t.range keyPrefix endKey e.key && e.live) = true := by
                rw [asksBack, hprefix]
                simp [KeyRange.contains, hbefore, hafter.2, hend, Entry.live, hsome]
              rw [getLast?_below hasc hlast hasks, bind_some, hsome]
              rfl

/-- What is left for a reverse scan below a bound. -/
def left (t : Tree) (a : ScanArgs) (bound : Below) : List ScanEntry :=
  a.showAll ((t.asked a.keyPrefix a.endKey).filter fun e => bound.admits e.key).reverse

lemma contents_lt_fuel (t : Tree) (p : Entry → Bool) : (t.contents.filter p).length < t.fuel := by
  have hlen : t.contents.length ≤ totalLength t.streams := length_merge_le _ _
  have := length_filter_le p t.contents
  rw [fuel]
  omega

/-- A search is blocked, or it finds out that nothing is left, or it finds what comes next. -/
theorem Ok.seekNext_left (h : t.Ok) (loaded : ℕ → Bool) (a : ScanArgs) (bound : Below) :
    (∃ page, loaded page = false ∧
        t.seekNext loaded a.keyPrefix a.endKey t.fuel bound = .error page) ∨
      (t.seekNext loaded a.keyPrefix a.endKey t.fuel bound = .ok none ∧ t.left a bound = []) ∨
      ∃ e value, t.seekNext loaded a.keyPrefix a.endKey t.fuel bound = .ok (some (e, value)) ∧
        t.left a bound = a.shown e value :: t.left a (some (e.key, false)) := by
  rcases h.seekNext_ok loaded a.keyPrefix a.endKey t.fuel bound (t.contents_lt_fuel _) with
    hseek | hseek
  case inr => exact .inl hseek
  refine .inr ?_
  rw [hseek]
  cases hlast : ((t.asked a.keyPrefix a.endKey).filter fun e => bound.admits e.key).getLast? with
  | none =>
    refine .inl ⟨rfl, ?_⟩
    rw [left, getLast?_eq_none_iff.mp hlast]
    rfl
  | some e =>
    have hmem := mem_of_mem_filter (mem_of_getLast? hlast)
    have hlive : e.live = true := (Bool.and_eq_true_iff.mp (mem_filter.mp hmem).2).2
    obtain ⟨value, hvalue⟩ := isSome_iff_exists.mp hlive
    refine .inr ⟨e, value, by rw [bind_some, hvalue]; rfl, ?_⟩
    rw [left, filter_below_last (h.asked_ascending _ _) hlast, reverse_append,
      reverse_singleton, singleton_append]
    simp only [ScanArgs.showAll, filterMap_cons, hvalue]
    rfl

end Tree

/-! ## Behind the empty key

A scan that has delivered the empty key cannot tell from its last key that it has delivered
anything. It never has to: the search below the empty key passes only pages that the search
before has passed. -/

mutual

theorem Page.predecessor_nil {loaded : ℕ → Bool} {lo hi : Option Key} {bound : Below} :
    ∀ {p : Page}, p.Within lo hi → (∀ page, p.predecessor loaded bound ≠ .blocked page) →
      (∀ e, p.predecessor loaded bound = .found e → e.key = []) →
      ∀ page, p.predecessor loaded (some ([], false)) ≠ .blocked page
  | .leaf id entries, _, hopen, _, page => by
    simp only [Page.predecessor] at hopen ⊢
    split
    · split <;> exact nofun
    next hid =>
      rw [if_neg hid] at hopen
      exact absurd rfl (hopen id)
  | .inner id children, h, hopen, hkey, page => by
    simp only [Page.predecessor] at hopen hkey ⊢
    split
    next hid =>
      simp only [if_pos hid] at hopen hkey
      exact Children.predecessor_nil h hopen hkey page
    next hid =>
      rw [if_neg hid] at hopen
      exact absurd rfl (hopen id)

theorem Children.predecessor_nil {loaded : ℕ → Bool} {lo hi : Option Key} {bound : Below} :
    ∀ {c : Children}, c.Within lo hi → (∀ page, c.predecessor loaded bound ≠ .blocked page) →
      (∀ e, c.predecessor loaded bound = .found e → e.key = []) →
      ∀ page, c.predecessor loaded (some ([], false)) ≠ .blocked page
  | .last child, h, hopen, hkey, page =>
    Page.predecessor_nil h hopen hkey page
  | .cons child sep rest, h, hopen, hkey, page => by
    have hsep : ([] : Key) < sep := by
      cases sep with
      | nil => exact absurd rfl h.1.2
      | cons byte sep => exact List.nil_lt_cons byte sep
    have hleft : (some (([] : Key), false)).any (fun b => decide (b.1 < sep)) = true := by
      simpa using hsep
    simp only [Children.predecessor, hleft] at hopen hkey ⊢
    split at hopen
    next hb =>
      simp only [if_pos hb] at hkey
      exact Page.predecessor_nil h.2.1 hopen hkey page
    next hb =>
      simp only [if_neg hb] at hkey
      cases hrest : rest.predecessor loaded bound with
      | absent =>
        simp only [hrest] at hopen hkey
        exact Page.predecessor_nil h.2.1 hopen hkey page
      | blocked id =>
        simp only [hrest] at hopen
        exact absurd rfl (hopen id)
      | found e =>
        -- what is found on the right is not below the separator
        simp only [hrest] at hkey
        have hnil : e.key = [] := hkey e rfl
        rcases Children.predecessor_eq loaded bound h.2.2 with hp | ⟨id, -, hp⟩
        · rw [hrest] at hp
          cases hlast : (rest.entries.filter fun e => bound.admits e.key).getLast? with
          | none => rw [hlast] at hp; cases hp
          | some =>
            rw [hlast] at hp
            cases hp
            have hmem := List.mem_of_mem_filter (List.mem_of_getLast? hlast)
            have := (h.2.2.inRange e hmem).1 sep rfl
            rw [hnil] at this
            exact absurd hsep (not_lt.mpr this)
        · rw [hrest] at hp
          cases hp

end

variable {e : Entry} {value : Bytes}

namespace Tree
variable {t : Tree} {loaded : ℕ → Bool}

lemma Ok.lastBelow_nil (h : t.Ok) {bound : Below}
    (hlast : t.lastBelow loaded bound = .ok (some e)) (hkey : e.key = []) :
    t.lastBelow loaded (some ([], false)) = .ok none := by
  rcases h.lastBelow_ok loaded (some ([], false)) with hnil | ⟨page, -, hblocked⟩
  · have hempty : (t.contents.filter fun e => Below.admits (some ([], false)) e.key) = [] :=
      filter_eq_nil_iff.mpr fun b _ => by simp [Below.admits]
    rw [hnil, hempty]
    rfl
  · exfalso
    simp only [lastBelow] at hlast hblocked
    cases hroot : t.root with
    | none => simp [hroot] at hblocked
    | some root =>
      simp only [hroot, elim_some] at hlast hblocked
      have hopen : ∀ id, root.predecessor loaded bound ≠ .blocked id := by
        intro id hid
        rw [hid] at hlast
        cases hlast
      have hfound : ∀ e', root.predecessor loaded bound = .found e' → e'.key = [] := by
        intro e' he'
        rw [he'] at hlast
        have hfirst := pick_first strict_behind (Except.ok.inj hlast) e'
          (mem_append_right _ mem_cons_self)
        rw [hkey] at hfirst
        simp only [behind, decide_eq_false_iff_not] at hfirst
        cases hk : e'.key with
        | nil => rfl
        | cons byte key =>
          rw [hk] at hfirst
          exact absurd (nil_lt_cons byte key) hfirst
      have hnil := Page.predecessor_nil (h.root root hroot) hopen hfound
      split at hblocked
      next id hid => exact hnil id hid
      · cases hblocked
      · cases hblocked

lemma Ok.seekNext_nil (h : t.Ok) {keyPrefix endKey : Key} {n : ℕ} {bound : Below}
    (hseek : t.seekNext loaded keyPrefix endKey n bound = .ok (some (e, value))) (hkey : e.key = [])
    (m : ℕ) : t.seekNext loaded keyPrefix endKey (m + 1) (some ([], false)) = .ok none := by
  induction n generalizing bound with
  | zero => cases hseek
  | succ _ ih =>
    simp only [seekNext] at hseek
    split at hseek
    · cases hseek
    · cases hseek
    next e' hbelow =>
      split_ifs at hseek
      · cases hseek
      · exact ih hseek
      · cases hseek
      · exact ih hseek
      · split at hseek
        · exact ih hseek
        · cases hseek
          rw [seekNext, h.lastBelow_nil hbelow hkey]

end Tree

/-! ## The walk of a reverse scan -/

variable {r : Option (Entry × Bytes)}

namespace Tree

section
variable (t : Tree) (a : ScanArgs)

/-- Load the pages that block a search. -/
def settle : ℕ → Cold → Below → Cold
  | 0, cold, _ => cold
  | n + 1, cold, bound =>
    match t.seekNext cold.loaded a.keyPrefix a.endKey t.fuel bound with
    | .error page => settle n (cold.load page) bound
    | .ok _ => cold

/-- The pages that are missing and the bound, one entry further along a walk that loads each page
it is blocked at. -/
def walkOn (s : Cold × Below) : Cold × Below :=
  match t.seekNext (t.settle a s.1.length s.1 s.2).loaded a.keyPrefix a.endKey t.fuel s.2 with
  | .ok (some (e, _)) => (t.settle a s.1.length s.1 s.2, some (e.key, false))
  | _ => (t.settle a s.1.length s.1 s.2, s.2)

def walkedTo (cold : Cold) : ℕ → Cold × Below
  | 0 => (cold, a.reverseStart)
  | k + 1 => t.walkOn a (walkedTo cold k)

/-- The walk is blocked when it looks for the entry behind `k` others. -/
def blockedAt (cold : Cold) (k : ℕ) : Bool :=
  match t.seekNext (t.walkedTo a cold k).1.loaded a.keyPrefix a.endKey t.fuel
      (t.walkedTo a cold k).2 with
  | .error _ => true
  | .ok _ => false

end

variable {t : Tree} {a : ScanArgs} {bound : Below}

lemma settle_of_ok {n : ℕ} {cold : Cold}
    (h : t.seekNext cold.loaded a.keyPrefix a.endKey t.fuel bound = .ok r) :
    t.settle a n cold bound = cold := by
  cases n with
  | zero => rfl
  | succ => rw [settle, h]

lemma Ok.error_cold (h : t.Ok) {loaded : ℕ → Bool} {a : ScanArgs} {page : ℕ}
    (herr : t.seekNext loaded a.keyPrefix a.endKey t.fuel bound = .error page) :
    loaded page = false := by
  rcases h.seekNext_left loaded a bound with ⟨id, hid, hs⟩ | ⟨hs, -⟩ | ⟨e, value, hs, -⟩
  all_goals rw [hs] at herr
  · exact Except.error.inj herr ▸ hid
  all_goals cases herr

lemma Ok.settle_fuel (h : t.Ok) {n m : ℕ} {cold : Cold} (hn : cold.length ≤ n)
    (hm : cold.length ≤ m) : t.settle a n cold bound = t.settle a m cold bound := by
  cases hs : t.seekNext cold.loaded a.keyPrefix a.endKey t.fuel bound with
  | ok => rw [settle_of_ok hs, settle_of_ok hs]
  | error =>
    have hlt := Cold.length_load_lt (h.error_cold hs)
    obtain ⟨n, rfl⟩ : ∃ k, n = k + 1 := ⟨n - 1, by omega⟩
    obtain ⟨m, rfl⟩ : ∃ k, m = k + 1 := ⟨m - 1, by omega⟩
    rw [settle, settle, hs]
    exact h.settle_fuel (by omega) (by omega)
  termination_by cold.length

lemma Ok.settle_load (h : t.Ok) {cold : Cold} {page : ℕ}
    (hs : t.seekNext cold.loaded a.keyPrefix a.endKey t.fuel bound = .error page) :
    t.settle a (cold.load page).length (cold.load page) bound =
      t.settle a cold.length cold bound := by
  have hlt := Cold.length_load_lt (h.error_cold hs)
  obtain ⟨n, hn⟩ : ∃ n, cold.length = n + 1 := ⟨cold.length - 1, by omega⟩
  rw [hn, settle, hs]
  exact h.settle_fuel le_rfl (by omega)

lemma blockedAt_of_ok {cold : Cold} {k : ℕ}
    (h : t.seekNext (t.walkedTo a cold k).1.loaded a.keyPrefix a.endKey t.fuel
      (t.walkedTo a cold k).2 = .ok r) :
    t.blockedAt a cold k = false := by
  rw [blockedAt, h]

lemma blockedAt_of_error {cold : Cold} {k : ℕ} (page : ℕ)
    (h : t.seekNext (t.walkedTo a cold k).1.loaded a.keyPrefix a.endKey t.fuel
      (t.walkedTo a cold k).2 = .error page) : t.blockedAt a cold k = true := by
  rw [blockedAt, h]

end Tree

/-! ## Resumed scans -/

/-- No bound is reached by what has been collected. -/
structure Room (a : ScanArgs) (count used : ℕ) : Prop where
  limit : a.limit = 0 ∨ count < a.limit
  budget : a.byteBudget = 0 ∨ used < a.byteBudget

lemma Room.not_reached {a : ScanArgs} {count used : ℕ} (h : Room a count used) :
    reached a.limit a.byteBudget count used = false := by
  obtain ⟨hl, hb⟩ := h
  simp only [reached, Bool.or_eq_false_iff, Bool.and_eq_false_iff, bne_eq_false_iff_eq,
    decide_eq_false_iff_not]
  omega

/-- An attempt compares what is left of the bounds. -/
theorem Room.fits_remaining {a : ScanArgs} {count used n bytes : ℕ} (h : Room a count used)
    (e : ScanEntry) :
    fits size (remainingLimit a.limit count) (remainingBudget a.byteBudget used) n bytes e =
      (fits size a.limit a.byteBudget (count + n) (used + bytes) e ||
        (n == 0 && (a.limit == 0 || decide (count < a.limit)))) := by
  obtain ⟨hl, hb⟩ := h
  have hlimit : remainingLimit a.limit count = a.limit - count := by
    rw [remainingLimit]
    split <;> omega
  have hbudget : remainingBudget a.byteBudget used = a.byteBudget - used := by
    rw [remainingBudget]
    split <;> omega
  rw [Bool.eq_iff_iff]
  simp only [fits, Bool.and_eq_true, Bool.or_eq_true, beq_iff_eq, decide_eq_true_eq]
  omega

namespace Tree

/-- The loop of an attempt, one entry on. -/
theorem tryReverseLoop_found {t : Tree} {loaded : ℕ → Bool} {a : ScanArgs} {n : ℕ} {bound : Below}
    {out : ScanOut}
    (h : t.seekNext loaded a.keyPrefix a.endKey t.fuel bound = .ok (some (e, value))) :
    t.tryReverseLoop loaded a (n + 1) bound out =
      if fits size a.limit a.byteBudget out.entries.length out.bytes (a.shown e value) then
        t.tryReverseLoop loaded a n (some (e.key, false)) (out.push (a.shown e value))
      else .ok { out with truncated := true } := by
  rw [tryReverseLoop, h]
  exact ite_fits _ _

section Attempt
variable {t : Tree} {a : ScanArgs} {cold₀ cold : Cold} {k used : ℕ}

/-- An attempt that has come to an entry: where the walk that loads every page would be. -/
structure Arrived (t : Tree) (a : ScanArgs) (cold₀ cold : Cold) (k : ℕ) (found : List ScanEntry)
    (bound : Below) : Prop where
  walked : (t.walkedTo a cold₀ (k + found.length)).2 = bound
  settled : t.settle a (t.walkedTo a cold₀ (k + found.length)).1.length
    (t.walkedTo a cold₀ (k + found.length)).1 bound = t.settle a cold.length cold bound
  missing : found ≠ [] → (t.walkedTo a cold₀ (k + found.length)).1 = cold
  last : ∀ e, found.getLast? = some e → bound = some (e.key, false) ∧
    (e.key = [] → t.seekNext cold.loaded a.keyPrefix a.endKey t.fuel bound = .ok none)

lemma Arrived.push (h : t.Ok) {found : List ScanEntry} {bound : Below}
    (hat : Arrived t a cold₀ cold k found bound)
    (hseek : t.seekNext cold.loaded a.keyPrefix a.endKey t.fuel bound = .ok (some (e, value))) :
    Arrived t a cold₀ cold k (found ++ [a.shown e value]) (some (e.key, false)) := by
  have hwalk : t.walkedTo a cold₀ (k + (found ++ [a.shown e value]).length) =
      (cold, some (e.key, false)) := by
    have hs := hat.settled.trans (settle_of_ok hseek)
    rw [length_append, length_singleton, ← Nat.add_assoc, walkedTo, walkOn, hat.walked, hs, hseek]
  refine ⟨by rw [hwalk], by rw [hwalk], fun _ => by rw [hwalk], fun e' he' => ?_⟩
  rw [getLast?_append] at he'
  cases he'
  refine ⟨rfl, fun hnil => ?_⟩
  have hkey : e.key = [] := hnil
  rw [hkey]
  exact h.seekNext_nil hseek hkey _

/-- What a reverse scan delivers that is taken up again after each block, from a point on. -/
def resumed (t : Tree) (a : ScanArgs) (cold₀ : Cold) (start count used : ℕ) (bound : Below) :
    List ScanEntry × Bool :=
  takeResumed ScanEntry.size a.limit a.byteBudget (t.blockedAt a cold₀) start count used
    (t.left a bound)

/-- An attempt delivers what the resumed page holds up to its end, or up to the next block. -/
theorem Ok.tryReverseLoop_resumed (h : t.Ok) (hroom : Room a k used) (start : Key) (n : ℕ)
    (bound : Below) (out : ScanOut) (hn : (t.left a bound).length < n)
    (hout : out.truncated = false) (hbytes : out.bytes = payloadBytes out.entries)
    (hat : Arrived t a cold₀ cold k out.entries bound) :
    (∃ out', t.tryReverseLoop cold.loaded { a with
        startAfter := start
        limit := remainingLimit a.limit k
        byteBudget := remainingBudget a.byteBudget used } n bound out = .ok out' ∧
      (out'.entries, out'.truncated) = (t.resumed a cold₀ k (k + out.entries.length)
        (used + out.bytes) bound).map (out.entries ++ ·) id) ∨
    ∃ page out' bound' more, t.tryReverseLoop cold.loaded { a with
        startAfter := start
        limit := remainingLimit a.limit k
        byteBudget := remainingBudget a.byteBudget used } n bound out = .error (page, out') ∧
      t.seekNext cold.loaded a.keyPrefix a.endKey t.fuel bound' = .error page ∧
      out'.bytes = payloadBytes out'.entries ∧ out'.entries = out.entries ++ more ∧
      Arrived t a cold₀ cold k out'.entries bound' ∧
      t.resumed a cold₀ k (k + out.entries.length) (used + out.bytes) bound = (t.resumed a cold₀ k
        (k + out'.entries.length) (used + out'.bytes) bound').map (more ++ ·) id := by
  induction n generalizing bound out with
  | zero => omega
  | succ n ih =>
    -- past its first entry the attempt is not blocked where it finds something out
    have hopen : ∀ r, t.seekNext cold.loaded a.keyPrefix a.endKey t.fuel bound = .ok r →
        (t.blockedAt a cold₀ (k + out.entries.length) &&
          reached a.limit a.byteBudget (k + out.entries.length) (used + out.bytes)) = false := by
      intro r hr
      by_cases hnil : out.entries = []
      · rw [hbytes, hnil]
        exact Bool.and_eq_false_iff.mpr (.inr hroom.not_reached)
      · refine Bool.and_eq_false_iff.mpr (.inl (blockedAt_of_ok (r := r) ?_))
        rw [hat.walked, hat.missing hnil]
        exact hr
    rcases h.seekNext_left cold.loaded a bound with ⟨page, hpage, hseek⟩ | ⟨hseek, hleft⟩ |
        ⟨e, value, hseek, hleft⟩
    · refine .inr ⟨page, out, bound, [], ?_, hseek, hbytes, (append_nil _).symm, hat, rfl⟩
      simp [tryReverseLoop, hseek]
    · refine .inl ⟨out, by simp [tryReverseLoop, hseek], ?_⟩
      rw [resumed, hleft, takeResumed, hopen none hseek, hout, Prod.map, append_nil]
      rfl
    · rw [tryReverseLoop_found (by exact hseek)]
      have hloop : t.resumed a cold₀ k (k + out.entries.length) (used + out.bytes) bound =
          if fits size (remainingLimit a.limit k) (remainingBudget a.byteBudget used)
              out.entries.length out.bytes (a.shown e value) then
            (t.resumed a cold₀ k (k + out.entries.length + 1)
              (used + out.bytes + (a.shown e value).size) (some (e.key, false))).map
                (a.shown e value :: ·) id
          else ([], true) := by
        have hgo : (fits size a.limit a.byteBudget (k + out.entries.length)
              (used + out.bytes) (a.shown e value) ||
            ((t.blockedAt a cold₀ (k + out.entries.length) || k + out.entries.length == k) &&
              (a.limit == 0 || decide (k + out.entries.length < a.limit)))) =
            fits size (remainingLimit a.limit k) (remainingBudget a.byteBudget used)
              out.entries.length out.bytes (a.shown e value) := by
          rw [hroom.fits_remaining]
          by_cases hnil : out.entries = []
          · simp [hnil]
          · have hlen : out.entries.length ≠ 0 := mt length_eq_zero_iff.mp hnil
            have hb : t.blockedAt a cold₀ (k + out.entries.length) = false := by
              refine blockedAt_of_ok (r := some (e, value)) ?_
              rw [hat.walked, hat.missing hnil]
              exact hseek
            rw [hb, beq_eq_false_iff_ne.mpr (by omega), beq_eq_false_iff_ne.mpr hlen]
            rfl
        have hstart : (if t.blockedAt a cold₀ (k + out.entries.length) then k + out.entries.length
            else k) = k := by
          by_cases hnil : out.entries = []
          · simp [hnil]
          · rw [if_neg]
            rw [blockedAt, hat.walked, hat.missing hnil, hseek]
            exact Bool.false_ne_true
        rw [resumed, hleft, takeResumed, hopen _ hseek, hgo, hstart]
        rfl
      rw [hloop]
      split
      next hfits =>
        have hlen : (t.left a (some (e.key, false))).length < n := by
          rw [hleft, length_cons] at hn
          omega
        have hpush := ih (some (e.key, false)) (out.push (a.shown e value)) hlen hout
          (by simp [ScanOut.push, payloadBytes, hbytes]) (hat.push h hseek)
        simp only [ScanOut.push, length_append, length_singleton, ← Nat.add_assoc,
          append_assoc] at hpush
        rw [if_pos (by exact hfits)]
        rcases hpush with ⟨out', hrun, hres⟩ | ⟨page, out', bound', more, hrun, hrest⟩
        · exact .inl ⟨out', hrun, hres⟩
        · obtain ⟨hpage, hbytes', hentries, hat', hres⟩ := hrest
          refine .inr ⟨page, out', bound', a.shown e value :: more, hrun, hpage, hbytes', hentries,
            hat', ?_⟩
          rw [hres]
          rfl
      next hfits =>
        rw [if_neg (by exact hfits)]
        exact .inl ⟨_, rfl, by simp⟩

lemma left_lt_fuel (t : Tree) (a : ScanArgs) (bound : Below) :
    (t.left a bound).length < t.fuel := by
  refine lt_of_le_of_lt ?_ (t.contents_lt_fuel fun e =>
    asksBack t.range a.keyPrefix a.endKey e.key && e.live)
  refine (length_filterMap_le _ _).trans ?_
  rw [length_reverse]
  exact length_filter_le _ _

lemma reverseStart_resume (hkey : key ≠ []) (a : ScanArgs) (limit budget : ℕ) : ({ a with
      startAfter := makeResumeAfter a.startAfter (some key)
      limit := limit
      byteBudget := budget } : ScanArgs).reverseStart = some (key, false) := by
  simp [ScanArgs.reverseStart, makeResumeAfter, hkey]

/-- From the start, or from a block, the attempts together deliver the resumed page. -/
theorem Ok.scanReverseAsyncAttempt_eq (h : t.Ok) (n : ℕ) (cold : Cold)
    (found : List ScanEntry) (lastKey : Option Key) (bound : Below) (hn : cold.length < n)
    (hstart : ∀ limit budget, ({ a with
      startAfter := makeResumeAfter a.startAfter lastKey
      limit := limit
      byteBudget := budget } : ScanArgs).reverseStart = bound)
    (hblocked : found = [] ∨ t.blockedAt a cold₀ found.length = true)
    (hat : Arrived t a cold₀ cold found.length [] bound) :
    t.scanReverseAsyncAttempt a n cold found lastKey found.length =
      some ((t.resumed a cold₀ found.length found.length (payloadBytes found) bound).map
        (found ++ ·) id) := by
  induction n generalizing cold found lastKey bound with
  | zero => omega
  | succ _ ih =>
    have hfull : 0 < found.length →
        reached a.limit a.byteBudget found.length (payloadBytes found) = true →
        some (found, true) = some ((t.resumed a cold₀ found.length found.length
          (payloadBytes found) bound).map (found ++ ·) id) := by
      intro hpos hreached
      have hb := hblocked.resolve_left (ne_nil_of_length_pos hpos)
      rw [resumed, takeResumed_reached hb hreached, Prod.map, append_nil]
      rfl
    rw [scanReverseAsyncAttempt]
    split
    next hbudget =>
      refine hfull hbudget.2.2 ?_
      have := hbudget.2.2.ne'
      simp [reached, hbudget.1, this, hbudget.2.1]
    next hbudget =>
    split
    next hlimit =>
      refine hfull (by omega) ?_
      simp [reached, hlimit.1, hlimit.2]
    next hlimit =>
    have hroom : Room a found.length (payloadBytes found) := by
      refine ⟨by omega, ?_⟩
      by_cases hnil : found = []
      · subst hnil
        simp only [payloadBytes, map_nil, sum_nil]
        omega
      · have := length_pos_iff.mpr hnil
        omega
    rw [tryScanReverseNoLoad, hstart]
    rcases h.tryReverseLoop_resumed hroom (makeResumeAfter a.startAfter lastKey) t.fuel
        bound {} (t.left_lt_fuel a bound) rfl rfl hat with
      ⟨out, hrun, hres⟩ | ⟨page, out, bound', more, hrun, hseek, hbytes, hmore, hat', hres⟩
    · obtain ⟨hentries, htrunc⟩ := Prod.mk.inj hres
      rw [hrun]
      dsimp only
      rw [hentries, htrunc]
      rfl
    · rw [hrun]
      obtain rfl : more = out.entries := hmore.symm
      have hlt := Cold.length_load_lt (h.error_cold hseek)
      dsimp only
      split
      next hnil =>
        -- blocked again before anything was found
        rw [hnil] at hat'
        obtain rfl : bound = bound' := hat.walked.symm.trans hat'.walked
        exact ih _ found lastKey bound (by omega) hstart hblocked
          ⟨hat.walked, hat.settled.trans (h.settle_load hseek).symm, (absurd rfl),
            fun e he => by cases he⟩
      next hne =>
        have hb : t.blockedAt a cold₀ (found.length + out.entries.length) = true := by
          refine blockedAt_of_error page ?_
          rw [hat'.walked, hat'.missing hne]
          exact hseek
        obtain ⟨e, he⟩ := ne_none_iff_exists'.mp (mt getLast?_eq_none_iff.mp hne)
        obtain ⟨hbound, hempty⟩ := hat'.last e he
        have hkey : e.key ≠ [] := by
          intro hnil
          rw [hempty hnil] at hseek
          cases hseek
        have hnext := ih (cold.load page) (found ++ out.entries)
          (out.entries.getLast?.map key) bound' (by omega)
          (by rw [he, hbound]; exact reverseStart_resume hkey a)
          (.inr (by rw [length_append]; exact hb))
          ⟨by rw [length_append]; exact hat'.walked, by
            rw [length_append, h.settle_load hseek]; exact hat'.settled,
            absurd rfl, fun e he => by cases he⟩
        have hpay : payloadBytes (found ++ out.entries) = payloadBytes found + out.bytes := by
          rw [hbytes, payloadBytes, map_append, sum_append]
          rfl
        have hswap : t.resumed a cold₀ (found.length + out.entries.length)
            (found.length + out.entries.length) (payloadBytes found + out.bytes) bound' =
            t.resumed a cold₀ found.length (found.length + out.entries.length)
              (payloadBytes found + out.bytes) bound' := takeResumed_start hb
        have hres' : t.resumed a cold₀ found.length found.length (payloadBytes found) bound = _ :=
          hres
        rw [length_append, hpay, hswap] at hnext
        rw [hnext, hres', Prod.map, append_assoc]
        rfl

/-- A reverse scan that loads pages asynchronously delivers the resumed page. -/
theorem Ok.scanReverseAsync_eq (h : t.Ok) (cold : Cold) :
    t.scanReverseAsync a cold = some (takeResumed size a.limit a.byteBudget
      (t.blockedAt a cold) 0 0 0 (t.left a a.reverseStart)) := by
  have hat : Arrived t a cold cold 0 [] a.reverseStart :=
    ⟨rfl, rfl, absurd rfl, nofun⟩
  exact h.scanReverseAsyncAttempt_eq _ cold [] none _ (Nat.lt_succ_self _) (fun _ _ => rfl)
    (.inl rfl) hat

end Attempt

/-- With every page resident a reverse scan delivers the page of what is left. -/
theorem Ok.scanResident_reverse {t : Tree} (h : t.Ok) (a : ScanArgs) :
    t.scanResident a true = page size a.limit a.byteBudget (t.left a a.reverseStart) := by
  have hloop : ∀ n bound (out : ScanOut), (t.left a bound).length < n →
      t.tryReverseLoop (fun _ => true) a n bound out =
        .ok (out.extend a.limit a.byteBudget (t.left a bound)) := by
    intro n
    induction n with
    | zero => intro bound out hn; omega
    | succ _ ih =>
      intro bound out hn
      rcases h.seekNext_left (fun _ => true) a bound with ⟨page, hpage, -⟩ | ⟨hseek, hleft⟩ |
        ⟨e, value, hseek, hleft⟩
      · cases hpage
      · rw [tryReverseLoop, hseek, hleft, ScanOut.extend_nil]
      · rw [tryReverseLoop_found hseek, hleft]
        split
        next hfits =>
          rw [ScanOut.extend_cons_fits _ hfits]
          refine ih _ _ ?_
          rw [hleft, length_cons] at hn
          omega
        next hfits =>
          rw [ScanOut.extend_cons_full _ (Bool.eq_false_of_not_eq_true hfits)]
  rw [scanResident, tryScanReverseNoLoad, hloop _ _ _ (t.left_lt_fuel a _)]
  exact ScanOut.extend_page _ _ _

end Tree

/-- Asynchronous scans deliver what they would deliver with all pages resident, forward in any
case. In reverse this is so exactly when, at each entry behind the first that a walk is blocked
at, the limit or the budget is used up if and only if the resident scan is truncated there. No
scan delivers more than its limit. -/
theorem async_scans_eq_resident_iff {t : Tree} (h : t.Ok) (a : ScanArgs) (cold : Cold) :
    t.scanAsync a cold = some (t.scanResident a false) ∧
    (∀ reverse, ∃ r, t.scanDirectionalAsync a reverse cold = some r ∧
      (a.limit ≠ 0 → r.1.length ≤ a.limit)) ∧
    ((∀ reverse, t.scanDirectionalAsync a reverse cold = some (t.scanResident a reverse)) ↔
      ∀ k, 0 < k → k ≤ (t.scanResident a true).1.length → t.blockedAt a cold k = true →
        (reached a.limit a.byteBudget k (payloadBytes ((t.scanResident a true).1.take k)) = true ↔
          k = (t.scanResident a true).1.length ∧ (t.scanResident a true).2 = true)) := by
  have hforward := h.scanAsync_eq a cold
  have hreverse := h.scanReverseAsync_eq (a := a) cold
  refine ⟨hforward, fun reverse => ?_, ?_⟩
  · cases reverse with
    | false =>
      refine ⟨_, hforward, fun hlimit => ?_⟩
      rw [Tree.scanResident, h.scan_eq (fun hb => by cases hb)]
      exact length_page_le _ hlimit
    | true =>
      refine ⟨_, hreverse, fun hlimit => ?_⟩
      have hle : 0 + (takeResumed size a.limit a.byteBudget (t.blockedAt a cold) 0 0 0
          (t.left a a.reverseStart)).1.length ≤ a.limit :=
        length_takeResumed_le hlimit (Nat.zero_le a.limit)
      rwa [Nat.zero_add] at hle
  · have hiff : (∀ reverse, t.scanDirectionalAsync a reverse cold =
      some (t.scanResident a reverse)) ↔
        takeResumed size a.limit a.byteBudget (t.blockedAt a cold) 0 0 0
          (t.left a a.reverseStart) =
            page size a.limit a.byteBudget (t.left a a.reverseStart) := by
      rw [Bool.forall_bool, ← h.scanResident_reverse]
      constructor
      · intro hall
        exact some.inj (hreverse.symm.trans hall.2)
      · intro heq
        exact ⟨hforward, hreverse.trans (congrArg some heq)⟩
    rw [hiff, resumed_page_iff, h.scanResident_reverse]
    refine forall_congr' fun k => forall_congr' fun _ => forall_congr' fun hk => ?_
    obtain ⟨rest, hrest, -⟩ :
        ∃ rest, t.left a a.reverseStart = (page size a.limit a.byteBudget
          (t.left a a.reverseStart)).1 ++ rest ∧ _ := page_split (t.left a a.reverseStart)
    have htake : (t.left a a.reverseStart).take k =
        (page size a.limit a.byteBudget (t.left a a.reverseStart)).1.take k := by
      conv_lhs => rw [hrest]
      exact take_append_of_le_length hk
    rw [htake, payloadBytes]

/-- Two leaves; the left one holds the longer value. -/
def twoLeaves : Tree where
  memtables := []
  root := some (.inner 0 (.cons (.leaf 1 [⟨[1], ⟨1, some [7, 7, 7]⟩⟩]) [2]
    (.last (.leaf 2 [⟨[2], ⟨2, some [7]⟩⟩]))))
  range := ⟨none, none⟩

lemma twoLeaves_ok : twoLeaves.Ok where
  memtables m hm := by cases hm
  root root hroot := by
    cases hroot
    refine ⟨⟨⟨nofun, nofun⟩, by decide⟩, ⟨?_, ?_⟩, ?_, ?_⟩
    · exact pairwise_singleton _ _
    · intro e he
      obtain rfl := mem_singleton.mp he
      exact ⟨nofun, fun _ h => (by cases h; decide)⟩
    · exact pairwise_singleton _ _
    · intro e he
      obtain rfl := mem_singleton.mp he
      exact ⟨fun _ h => (by cases h; decide), nofun⟩

/-- A page that is loaded between two entries lifts the budget for the second. -/
theorem async_scan_exceeds_budget :
    twoLeaves.scanResident { limit := 0, byteBudget := 3 } true = ([⟨[2], 2, [7]⟩], true) ∧
    twoLeaves.scanDirectionalAsync { limit := 0, byteBudget := 3 } true [1] =
      some ([⟨[2], 2, [7]⟩, ⟨[1], 1, [7, 7, 7]⟩], false) ∧
    twoLeaves.scanResident { limit := 1, byteBudget := 0, keyPrefix := [2] } true =
      ([⟨[2], 2, [7]⟩], false) ∧
    twoLeaves.scanDirectionalAsync { limit := 1, byteBudget := 0, keyPrefix := [2] } true [1] =
      some ([⟨[2], 2, [7]⟩], true) := by
  decide +kernel

theorem async_scans_eq_resident_two_leaves :
    twoLeaves.scanDirectionalAsync { limit := 2, byteBudget := 9 } true [1] =
      some (twoLeaves.scanResident { limit := 2, byteBudget := 9 } true) := by
  refine (async_scans_eq_resident_iff twoLeaves_ok { limit := 2, byteBudget := 9 } [1]).2.2.mpr ?_
    true
  have hlen : (twoLeaves.scanResident { limit := 2, byteBudget := 9 } true).1.length = 2 := by
    decide +kernel
  intro k hpos hle hb
  have hk : k = 1 ∨ k = 2 := by omega
  rcases hk with rfl | rfl
  · decide +kernel
  · exact absurd hb (by decide +kernel)

end CrowDB.BTree
