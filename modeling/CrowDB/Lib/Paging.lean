import CrowDB.Lib.SortedMerge

/-!
# Pages of a list

A page takes elements as long as they fit a count and a size budget; a bound of zero does not
count, and the first element fits every budget. `readPages` reads page after page, each one
behind the last element of the page before.
-/
namespace CrowDB.Lib

open List

section
variable {α : Type*} (size : α → ℕ) (limit budget : ℕ)

/-- The next element fits behind `count` elements that have `used` bytes. -/
def fits (count used : ℕ) (a : α) : Bool :=
  (limit == 0 || decide (count < limit))
    && (budget == 0 || count == 0 || decide (used + size a ≤ budget))

/-- The page and whether an element was left out. -/
def takePage : ℕ → ℕ → List α → List α × Bool
  | _, _, [] => ([], false)
  | count, used, a :: as =>
    if fits size limit budget count used a then
      (a :: (takePage (count + 1) (used + size a) as).1,
        (takePage (count + 1) (used + size a) as).2)
    else ([], true)

def page (as : List α) : List α × Bool := takePage size limit budget 0 0 as

variable {size limit budget}

lemma takePage_split (count used : ℕ) (as : List α) :
    ∃ rest, as = (takePage size limit budget count used as).1 ++ rest ∧
      ((takePage size limit budget count used as).2 = true ↔ rest ≠ []) := by
  induction as generalizing count used with
  | nil => exact ⟨[], by simp [takePage]⟩
  | cons a as ih =>
    simp only [takePage]
    split
    · obtain ⟨rest, has, htr⟩ := ih (count + 1) (used + size a)
      exact ⟨rest, by simpa using has, htr⟩
    · exact ⟨a :: as, by simp⟩

lemma page_split (as : List α) : ∃ rest, as = (page size limit budget as).1 ++ rest ∧
    ((page size limit budget as).2 = true ↔ rest ≠ []) :=
  takePage_split 0 0 as

/-- The first element always fits. -/
theorem page_ne_nil {as : List α} (h : as ≠ []) : (page size limit budget as).1 ≠ [] := by
  cases as with
  | nil => exact absurd rfl h
  | cons a =>
    have hfit : fits size limit budget 0 0 a = true := by
      simp only [fits, beq_self_eq_true, Bool.or_true, Bool.true_or, Bool.and_true, Bool.or_eq_true,
        beq_iff_eq, decide_eq_true_eq]
      omega
    simp [page, takePage, hfit]

/-- Read the pages of what `query` finds behind the last element of the page before, up to the
first refusal; `none` when the fuel runs out. -/
def readPages {ε : Type*} (query : Option α → Except ε (List α × Bool)) :
    ℕ → Option α → Option (Except ε (List α))
  | 0, _ => none
  | n + 1, last =>
    match query last with
    | .error e => some (.error e)
    | .ok (as, false) => some (.ok as)
    | .ok (as, true) => (readPages query n as.getLast?).map fun r => r.map (as ++ ·)

end

section
variable {α ε : Type*}

/-- When each query pages the list behind the element it is given, the pages together are the
list. `tail` is what stands behind an element. -/
theorem readPages_eq (size : α → ℕ) (limit budget : ℕ) (tail : α → List α)
    {query : Option α → Except ε (List α × Bool)} {as : List α} {first : Option α}
    (h0 : query first = .ok (page size limit budget as))
    (hnext : ∀ front a back, as = front ++ a :: back → tail a = back)
    (hquery : ∀ front a back, as = front ++ a :: back → back ≠ [] →
      (page size limit budget as).1.length ≤ front.length + 1 →
      query (some a) = .ok (page size limit budget (tail a))) :
    ∀ n, as.length < n → readPages query n first = some (.ok as) := by
  intro n hn
  induction n generalizing as first with
  | zero => omega
  | succ n ih =>
    obtain ⟨rest, hsplit, htrunc⟩ : ∃ rest, as = (page size limit budget as).1 ++ rest ∧ _ :=
      page_split as
    cases hpage : page size limit budget as with
    | mk entries truncated =>
      rw [hpage] at hsplit htrunc
      dsimp only at hsplit htrunc
      rw [readPages, h0, hpage]
      cases truncated with
      | false =>
        have hrest : rest = [] := by
          by_contra hne
          exact absurd (htrunc.mpr hne) (by decide)
        rw [hrest, append_nil] at hsplit
        rw [hsplit]
      | true =>
        have hrest := htrunc.mp rfl
        have hne : entries ≠ [] := by
          have : (page size limit budget as).1 ≠ [] :=
            page_ne_nil fun has => hrest (append_eq_nil_iff.mp (hsplit.symm.trans has)).2
          rwa [hpage] at this
        obtain ⟨a, ha⟩ := Option.isSome_iff_exists.mp (getLast?_isSome.mpr hne)
        obtain ⟨front, hfront⟩ := getLast?_eq_some_iff.mp ha
        have has : as = front ++ a :: rest := by
          rw [hsplit, hfront]
          simp
        have htail := hnext front a rest has
        have hlen : rest.length < n := by
          have := congrArg length has
          simp only [length_append, length_cons] at this
          omega
        have hread : readPages query n (some a) = some (.ok rest) := by
          refine ih ?_ ?_ ?_ hlen
          · rw [hquery front a rest has hrest (by rw [hpage, hfront]; simp), htail]
          · intro front' b back hback
            exact hnext (front ++ a :: front') b back (by rw [has, hback]; simp)
          · intro front' b back hback hne' hle
            refine hquery (front ++ a :: front') b back (by rw [has, hback]; simp) hne' ?_
            rw [hpage, hfront]
            simp only [length_append, length_cons, length_nil]
            omega
        dsimp only
        rw [ha, hread, hsplit]
        rfl

end
/-! ## Pages that are taken up again -/

variable {count used start : ℕ}

section
variable {α : Type*} (size : α → ℕ) (limit budget : ℕ) (blocked : ℕ → Bool)

/-- A bound of the page is reached. -/
def reached (count used : ℕ) : Bool :=
  (limit != 0 && decide (limit ≤ count)) || (budget != 0 && count != 0 && decide (budget ≤ used))

/-- A page whose walk is interrupted before some elements and taken up again there. `start` is
the number of elements when it was last taken up: it then ends when a bound is reached already,
and the first element fits every budget again. -/
def takeResumed : ℕ → ℕ → ℕ → List α → List α × Bool
  | _, count, used, [] => ([], blocked count && reached limit budget count used)
  | start, count, used, a :: as =>
    if blocked count && reached limit budget count used then ([], true)
    else if fits size limit budget count used a ||
        ((blocked count || count == start) && (limit == 0 || decide (count < limit))) then
      let r := takeResumed (if blocked count then count else start) (count + 1) (used + size a) as
      (a :: r.1, r.2)
    else ([], true)

variable {size limit budget blocked} {as : List α}

lemma takeResumed_reached (hb : blocked count = true)
    (hr : reached limit budget count used = true) :
    takeResumed size limit budget blocked start count used as = ([], true) := by
  cases as <;> simp [takeResumed, hb, hr]

/-- At an interruption it does not count where the walk was last taken up. -/
theorem takeResumed_start {start' : ℕ} (hb : blocked count = true) :
    takeResumed size limit budget blocked start count used as =
      takeResumed size limit budget blocked start' count used as := by
  cases as <;> simp [takeResumed, hb]

/-- Interruptions do not lift the limit. -/
theorem length_takeResumed_le (hlimit : limit ≠ 0) (hcount : count ≤ limit) :
    count + (takeResumed size limit budget blocked start count used as).1.length ≤ limit := by
  induction as generalizing start count used with
  | nil => exact hcount
  | cons a as ih =>
    simp only [takeResumed]
    split
    · exact hcount
    · split
      next hgo =>
        have hlt : count + 1 ≤ limit := by
          simp only [fits, Bool.or_eq_true, Bool.and_eq_true, beq_iff_eq, decide_eq_true_eq] at hgo
          omega
        have hrest : count + 1 + (takeResumed size limit budget blocked
            (if blocked count then count else start) (count + 1) (used + size a) as).1.length ≤
            limit := ih hlt
        simp only [length_cons]
        omega
      · exact hcount

lemma takePage_truncated_of_nil {a : α} (h : fits size limit budget count used a = false) :
    takePage size limit budget count used (a :: as) = ([], true) := by
  simp [takePage, h]

lemma takePage_of_fits {a : α} (h : fits size limit budget count used a = true) :
    takePage size limit budget count used (a :: as) =
      (a :: (takePage size limit budget (count + 1) (used + size a) as).1,
        (takePage size limit budget (count + 1) (used + size a) as).2) := by
  simp [takePage, h]

variable (size limit budget blocked) in
/-- At each interruption of a walk over `as` a bound is reached if and only if the page ends
there, behind `m` elements, with elements left over. -/
def Undisturbed (count used : ℕ) (as : List α) (m : ℕ) (truncated : Bool) : Prop :=
  ∀ i ≤ m, blocked (count + i) = true →
    (reached limit budget (count + i) (used + ((as.take i).map size).sum) = true ↔
      i = m ∧ truncated = true)

lemma undisturbed_cons_iff {m : ℕ} {a : α} {truncated : Bool}
    (h : blocked count = true → reached limit budget count used = false) :
    Undisturbed size limit budget blocked count used (a :: as) (m + 1) truncated ↔
      Undisturbed size limit budget blocked (count + 1) (used + size a) as m truncated := by
  have hcount : ∀ i, count + (i + 1) = count + 1 + i := by omega
  have hused : ∀ i, used + (((a :: as).take (i + 1)).map size).sum =
      used + size a + ((as.take i).map size).sum := by
    intro i
    rw [take_succ_cons, map_cons, sum_cons, Nat.add_assoc]
  constructor
  · intro hall i hi hbi
    have := hall (i + 1) (by omega) (by rwa [hcount])
    rw [hcount, hused] at this
    rw [this, Nat.add_right_cancel_iff]
  · intro hall i hi hbi
    cases i with
    | zero => simp [h hbi]
    | succ i =>
      have := hall i (by omega) (by rwa [← hcount])
      rw [hcount, hused, this, Nat.add_right_cancel_iff]

/-- Behind its first element a resumed page is the page exactly when nothing disturbs it. -/
theorem takeResumed_eq_iff (hstart : start < count) :
    takeResumed size limit budget blocked start count used as =
        takePage size limit budget count used as ↔
      Undisturbed size limit budget blocked count used as
        (takePage size limit budget count used as).1.length
        (takePage size limit budget count used as).2 := by
  induction as generalizing start count used with
  | nil =>
    simp only [takeResumed, takePage, Undisturbed, length_nil, Nat.le_zero_eq, forall_eq]
    cases blocked count <;> simp
  | cons a _ ih =>
    have hsucc : start < count + 1 := by omega
    cases hb : blocked count with
    | false =>
      have hne : (count == start) = false := by simpa using hstart.ne'
      cases hf : fits size limit budget count used a with
      | false =>
        rw [takePage_truncated_of_nil hf]
        simp [takeResumed, hb, hf, hne, Undisturbed]
      | true =>
        rw [takePage_of_fits hf, length_cons, undisturbed_cons_iff (by simp [hb]), ← ih hsucc]
        simp [takeResumed, hb, hf, Prod.ext_iff]
    | true =>
      cases hr : reached limit budget count used with
      | true =>
        -- the walk ends here
        simp only [takeResumed, hb, hr]
        constructor
        · intro h i hi hbi
          rw [← h] at hi ⊢
          obtain rfl : i = 0 := by simpa using hi
          simp [hr]
        · intro h
          have h0 := (h 0 (Nat.zero_le _) hb).mp (by exact hr)
          exact Prod.ext (length_eq_zero_iff.mp h0.1.symm).symm h0.2.symm
      | false =>
        have hlimit : (limit == 0 || decide (count < limit)) = true := by
          simp only [reached, Bool.or_eq_false_iff, Bool.and_eq_false_iff,
            bne_eq_false_iff_eq] at hr
          simpa using hr.1
        cases hf : fits size limit budget count used a with
        | false =>
          -- the walk goes on with an element that does not fit
          rw [takePage_truncated_of_nil hf]
          simp [takeResumed, hb, hlimit, Undisturbed]
        | true =>
          rw [takePage_of_fits hf, length_cons, undisturbed_cons_iff fun _ => hr,
            ← ih (Nat.lt_succ_self count)]
          simp [takeResumed, hb, hr, hf, Prod.ext_iff]

/-- A page that is taken up again is the page exactly when nothing disturbs it behind its first
element. -/
theorem resumed_page_iff (as : List α) :
    takeResumed size limit budget blocked 0 0 0 as = page size limit budget as ↔
      ∀ k, 0 < k → k ≤ (page size limit budget as).1.length → blocked k = true →
        (reached limit budget k (((as.take k).map size).sum) = true ↔
          k = (page size limit budget as).1.length ∧ (page size limit budget as).2 = true) := by
  have hzero : reached limit budget 0 0 = false := by simp [reached]
  cases as with
  | nil =>
    simp only [takeResumed, hzero, Bool.and_false, page, takePage, length_nil, true_iff]
    omega
  | cons a as =>
    have hfit : fits size limit budget 0 0 a = true := by
      simp only [fits, beq_self_eq_true, Bool.or_true, Bool.true_or, Bool.and_true, Bool.or_eq_true,
        beq_iff_eq, decide_eq_true_eq]
      omega
    have hpage : page size limit budget (a :: as) =
        (a :: (takePage size limit budget 1 (size a) as).1,
          (takePage size limit budget 1 (size a) as).2) := by
      rw [page, takePage_of_fits hfit, Nat.zero_add, Nat.zero_add]
    have hstep : takeResumed size limit budget blocked 0 0 0 (a :: as) = page size limit budget
        (a :: as) ↔ takeResumed size limit budget blocked 0 1 (size a) as =
          takePage size limit budget 1 (size a) as := by
      rw [hpage]
      simp [takeResumed, hzero, hfit, Prod.ext_iff]
    rw [hstep, takeResumed_eq_iff Nat.zero_lt_one, hpage]
    have hused : ∀ i, (((a :: as).take (i + 1)).map size).sum =
        size a + ((as.take i).map size).sum := by
      intro i
      rw [take_succ_cons, map_cons, sum_cons]
    constructor
    · intro h k hk hle hbk
      obtain ⟨i, rfl⟩ : ∃ i, k = i + 1 := ⟨k - 1, by omega⟩
      have := h i (by simpa using hle) (by rwa [Nat.add_comm])
      rw [Nat.add_comm] at this
      rw [hused, this, length_cons, Nat.add_right_cancel_iff]
    · intro h i hi hbi
      have := h (i + 1) (by omega) (by simpa using hi) (by rwa [Nat.add_comm])
      rw [hused, length_cons, Nat.add_right_cancel_iff] at this
      rw [Nat.add_comm, this]

lemma length_page_le (as : List α) (hlimit : limit ≠ 0) :
    (page size limit budget as).1.length ≤ limit := by
  have hsame : takeResumed size limit budget (fun _ => false) 0 0 0 as =
    page size limit budget as :=
    (resumed_page_iff as).mpr nofun
  have hle : 0 + (takeResumed size limit budget (fun _ => false) 0 0 0 as).1.length ≤ limit :=
    length_takeResumed_le hlimit (Nat.zero_le limit)
  rwa [hsame, Nat.zero_add] at hle

end
end CrowDB.Lib
