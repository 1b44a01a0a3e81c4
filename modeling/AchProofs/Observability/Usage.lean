import AchProofs.Foundation.Tally
import AchProofs.Foundation.Timestamp

namespace AchProofs.Observability

open Foundation Foundation.Percent Foundation.Timestamp Foundation.Timestamp.Civil

/-- A row of the daily activity. The counts of a metrics block are one value; a block of a breakdown
that is no object is `none`, and a date that is no string is empty. -/
structure Day (M : Type) where
  date : Bytes
  metrics : M
  modelGroups : List (Bytes × Option M)
  models : List (Bytes × Option M)
  apiKeys : List (Bytes × Option M)

structure DaySeries (M : Type) where
  date : Bytes
  counts : M
  deriving DecidableEq, Repr

structure WindowAggregate (M : Type) where
  series : List (DaySeries M)
  models : List (Bytes × M)
  keys : List (Bytes × M)

section Model

variable {M : Type} [AddCommMonoid M]

/-- A row without a date has a slot of its own, by its place in the list. -/
def dayKey (idx : ℕ) (day : Day M) : Bytes :=
  if day.date = [] then 0 :: (Nat.toDigits 10 idx).map (fun c => UInt8.ofNat c.toNat) else day.date

def dayModels (day : Day M) : List (Bytes × Option M) :=
  match day.modelGroups with
  | [] => day.models
  | groups => groups

def blocks (l : List (Bytes × Option M)) : List (Bytes × M) :=
  l.filterMap fun b => b.2.map (b.1, ·)

def modelRows (results : List (Option (Day M))) : List (Bytes × M) :=
  results.reduceOption.flatMap fun day => blocks (dayModels day)

def keyRows (results : List (Option (Day M))) : List (Bytes × M) :=
  results.reduceOption.flatMap fun day => blocks day.apiKeys

/-- The entry of an accumulator. -/
def entry (e : Bytes × M) : DaySeries M := ⟨if e.1.head? = some 0 then [] else e.1, e.2⟩

/-- The rows that do not decode are `none`. -/
def aggregateWindow (results : List (Option (Day M))) : WindowAggregate M where
  series := ((Tally.of (results.zipIdx.filterMap fun r => r.1.map fun day =>
    (dayKey r.2 day, day.metrics))).sorted (· ≤ ·)).map entry
  models := (Tally.of (modelRows results)).sorted (· ≤ ·)
  keys := (Tally.of (keyRows results)).sorted (· ≤ ·)

/-- The layout `2006-01-02`. -/
def parseDate (s : Bytes) : Option Civil := do
  let (year, s) ← readDigits 4 0 s
  let (month, s) ← readDigits 2 0 (← expect dash s)
  let (day, s) ← readDigits 2 0 (← expect dash s)
  let t : Civil := ⟨year, month, day, 0, 0, 0, 0⟩
  if s = [] ∧ t.Valid then some t else none

def formatDate (d : Civil) : Bytes :=
  digits 4 d.year ++ dash :: (digits 2 d.month ++ dash :: digits 2 d.day)

def parseDatePrefix (s : Bytes) : Option Civil := parseDate (s.take 10)

/-- Of the entries of a day, the last one stays in the map. -/
def byDay (series : List (DaySeries M)) (key : Bytes) : Option (DaySeries M) :=
  series.reverse.find? fun p => p.date ≠ [] ∧ p.date.take 10 = key

/-- The loop over the days, which takes as many turns as it has at most. -/
def daysUpTo (stop : Civil) : ℕ → Civil → List Civil
  | 0, _ => []
  | n + 1, d => if stop < d then [] else d :: daysUpTo stop n d.nextDay

def zeroFillSeries (series : List (DaySeries M)) (startISO endISO : Bytes) : List (DaySeries M) :=
  match parseDatePrefix startISO, parseDatePrefix endISO with
  | some start, some stop =>
    if stop < start ∨ start.addDays 399 < stop then series
    else (daysUpTo stop 400 start).map fun d =>
      (byDay series (formatDate d)).getD ⟨formatDate d, 0⟩
  | _, _ => series

/-- What the rows dated on a day add up to. -/
def dayTotal (rows : List (Day M)) (day : Bytes) : M :=
  ((rows.filter fun r => r.date.take 10 = day).map Day.metrics).sum

/-- The sums are those of the rows, in any order, and the filled series has one of each day. -/
structure Conserved (results : List (Option (Day M))) : Prop where
  days : ∀ e ∈ (aggregateWindow results).series,
    e.counts = dayTotal results.reduceOption (e.date.take 10)
  dated : ∀ r ∈ results.reduceOption, ∃ e ∈ (aggregateWindow results).series, e.date = r.date
  models : ∀ e, e ∈ (aggregateWindow results).models ↔
    e.1 ∈ (modelRows results).map Prod.fst ∧ e.2 = Tally.total (modelRows results) e.1
  keys : ∀ e, e ∈ (aggregateWindow results).keys ↔
    e.1 ∈ (keyRows results).map Prod.fst ∧ e.2 = Tally.total (keyRows results) e.1
  order : ∀ results', results'.Perm results → aggregateWindow results' = aggregateWindow results
  filled : ∀ startISO endISO start stop, parseDatePrefix startISO = some start →
    parseDatePrefix endISO = some stop → start ≤ stop → stop ≤ start.addDays 399 →
    ∃ n, (∀ i, i < n ↔ start.addDays i ≤ stop) ∧
      (zeroFillSeries (aggregateWindow results).series startISO endISO).map
          (fun e => (e.date.take 10, e.counts)) =
        (List.range n).map fun i => (formatDate (start.addDays i),
          dayTotal results.reduceOption (formatDate (start.addDays i)))

end Model

section Days

theorem head_of_parseDatePrefix {s : Bytes} (h : (parseDatePrefix s).isSome) : s ≠
    [] ∧ s.head? ≠ some 0 := by
  cases s with
  | nil => cases h
  | cons b s =>
    refine ⟨nofun, fun hb => ?_⟩
    cases hb
    cases h

theorem daysUpTo_eq {stop d : Civil} {n : ℕ} (h : stop < d.addDays n) :
    ∃ k, (∀ i, i < k ↔ d.addDays i ≤ stop) ∧
      daysUpTo stop n d = (List.range k).map fun i => d.addDays i := by
  have hnone : stop < d → ∀ i, i < 0 ↔ d.addDays i ≤ stop := fun hlt i =>
    iff_of_false (Nat.not_lt_zero i) (hlt.trans_le (le_addDays i d)).not_ge
  induction n generalizing d with
  | zero => exact ⟨0, hnone h, rfl⟩
  | succ n ih =>
    rw [daysUpTo]
    split_ifs with hlt
    · exact ⟨0, hnone hlt, rfl⟩
    · obtain ⟨k, hk, hdays⟩ := ih (d := d.nextDay) h (fun hlt i =>
        iff_of_false (Nat.not_lt_zero i) (hlt.trans_le (le_addDays i d.nextDay)).not_ge)
      refine ⟨k + 1, fun i => ?_, ?_⟩
      · cases i with
        | zero => exact iff_of_true (Nat.succ_pos k) (not_lt.mp hlt)
        | succ i => exact Nat.succ_lt_succ_iff.trans (hk i)
      · rw [hdays, List.range_succ_eq_map, List.map_cons, List.map_map]
        rfl

end Days

section Sums

variable {M : Type} [AddCommMonoid M] {results : List (Option (Day M))} {rows : List (Day M)}
  {e : DaySeries M} {d : Bytes}

/-- What the rows with a date in this spelling add up to. -/
def dateTotal (rows : List (Day M)) (d : Bytes) : M :=
  ((rows.filter fun r => r.date = d).map Day.metrics).sum

/-- What the rows of a day with its date in another spelling add up to. -/
def otherTotal (rows : List (Day M)) (d : Bytes) : M :=
  ((rows.filter fun r => r.date.take 10 = d.take 10 ∧ r.date ≠ d).map Day.metrics).sum

theorem dayTotal_eq (rows : List (Day M)) (d : Bytes) :
    dayTotal rows (d.take 10) = dateTotal rows d + otherTotal rows d := by
  unfold dayTotal dateTotal otherTotal
  induction rows with
  | nil => simp
  | cons r rows ih =>
    by_cases hd : r.date = d
    · simp [hd, ih, add_assoc]
    · by_cases hday : r.date.take 10 = d.take 10
      · simp [hd, hday, ih, add_left_comm]
      · simp [hd, hday, ih]

variable (hdated : ∀ r ∈ results.reduceOption, (parseDatePrefix r.date).isSome)

include hdated

omit [AddCommMonoid M] in
theorem dayRows_eq (n : ℕ) :
    ((results.zipIdx n).filterMap fun r => r.1.map fun day => (dayKey r.2 day, day.metrics)) =
      results.reduceOption.map fun r => (r.date, r.metrics) := by
  induction results generalizing n with
  | nil => rfl
  | cons r results ih =>
    cases r with
    | none => exact ih hdated (n + 1)
    | some day =>
      rw [List.reduceOption_cons_of_some, List.forall_mem_cons] at hdated
      have hne : day.date ≠ [] := (head_of_parseDatePrefix hdated.1).1
      rw [List.reduceOption_cons_of_some, List.map_cons, ← ih hdated.2 (n + 1)]
      simp [List.zipIdx_cons, dayKey, hne]

theorem mem_series : e ∈ (aggregateWindow results).series ↔
    e.date ∈ results.reduceOption.map Day.date ∧
      e.counts = dateTotal results.reduceOption e.date := by
  have htotal : ∀ k, Tally.total (results.reduceOption.map fun r => (r.date, r.metrics)) k =
      dateTotal results.reduceOption k := by
    intro k
    simp [Tally.total, dateTotal, List.filter_map, Function.comp_def]
  have hentry : ∀ k ∈ results.reduceOption.map Day.date, ∀ v : M, entry (k, v) = ⟨k, v⟩ := by
    intro k hk v
    obtain ⟨r, hr, rfl⟩ := List.mem_map.mp hk
    rw [entry, if_neg (head_of_parseDatePrefix (hdated r hr)).2]
  rw [aggregateWindow, dayRows_eq hdated, List.mem_map]
  simp only [Tally.mem_sorted, htotal, List.map_map, Function.comp_def]
  constructor
  · rintro ⟨⟨k, v⟩, ⟨hk, hv⟩, rfl⟩
    rw [hentry k hk]
    exact ⟨hk, hv⟩
  · rintro ⟨hk, hv⟩
    exact ⟨(e.date, e.counts), ⟨hk, hv⟩, hentry _ hk _⟩

theorem exists_series {r : Day M} (hr : r ∈ results.reduceOption) :
    ⟨r.date, dateTotal results.reduceOption r.date⟩ ∈ (aggregateWindow results).series :=
  (mem_series hdated).mpr ⟨List.mem_map_of_mem hr, rfl⟩

theorem aggregateWindow_perm {results' : List (Option (Day M))} (h : results'.Perm results) :
    aggregateWindow results' = aggregateWindow results := by
  have hrows : results'.reduceOption.Perm results.reduceOption := h.filterMap id
  have hdated' : ∀ r ∈ results'.reduceOption, (parseDatePrefix r.date).isSome :=
    fun r hr => hdated r (hrows.subset hr)
  simp only [aggregateWindow, dayRows_eq hdated, dayRows_eq hdated', modelRows, keyRows]
  rw [Tally.sorted_perm _ (hrows.map _), Tally.sorted_perm _ (hrows.flatMap_right _),
    Tally.sorted_perm _ (hrows.flatMap_right _)]

theorem byDay_total {key : Bytes} (hkey : key.take 10 = key)
    (hdays : ∀ e ∈ (aggregateWindow results).series,
      e.counts = dayTotal results.reduceOption (e.date.take 10)) :
    let e := (byDay (aggregateWindow results).series key).getD ⟨key, 0⟩
    (e.date.take 10, e.counts) = (key, dayTotal results.reduceOption key) := by
  cases hfind : byDay (aggregateWindow results).series key with
  | some p =>
    have hp : p.date ≠ [] ∧ p.date.take 10 = key := by simpa using List.find?_some hfind
    have hmem := List.mem_reverse.mp (List.mem_of_find?_eq_some hfind)
    simp [hdays p hmem, hp.2]
  | none =>
    have hempty : (results.reduceOption.filter fun r => r.date.take 10 = key) = [] := by
      refine List.filter_eq_nil_iff.mpr fun r hr hday => ?_
      have hnone := List.find?_eq_none.mp hfind _ (List.mem_reverse.mpr (exists_series hdated hr))
      simp [(head_of_parseDatePrefix (hdated r hr)).1, of_decide_eq_true hday] at hnone
    simp [dayTotal, hempty, hkey]

end Sums

/-- Usage is conserved exactly if, for every row, the rows that spell its day otherwise add up to
nothing. -/
theorem usage_conserved_iff {M : Type} [AddCancelCommMonoid M] (results : List (Option (Day M)))
    (hdated : ∀ r ∈ results.reduceOption, (parseDatePrefix r.date).isSome) :
    Conserved results ↔ ∀ r ∈ results.reduceOption, otherTotal results.reduceOption r.date = 0 := by
  constructor
  · intro h r hr
    have hday := h.days _ (exists_series hdated hr)
    exact left_eq_add.mp (hday.trans (dayTotal_eq _ r.date))
  · intro h
    have hdays : ∀ e ∈ (aggregateWindow results).series,
        e.counts = dayTotal results.reduceOption (e.date.take 10) := by
      intro e he
      obtain ⟨hdate, hcounts⟩ := (mem_series hdated).mp he
      obtain ⟨r, hr, hre⟩ := List.mem_map.mp hdate
      rw [hcounts, dayTotal_eq, ← hre, h r hr, add_zero]
    refine ⟨hdays, fun r hr => ⟨_, exists_series hdated hr, rfl⟩,
      fun e => Tally.mem_sorted _, fun e => Tally.mem_sorted _,
      fun _ hperm => aggregateWindow_perm hdated hperm, ?_⟩
    intro startISO endISO start stop hstart hstop hle hspan
    obtain ⟨n, hn, hloop⟩ := daysUpTo_eq (lt_of_le_of_lt hspan (addDays_lt_succ 399 start))
    refine ⟨n, hn, ?_⟩
    rw [zeroFillSeries, hstart, hstop]
    dsimp only
    rw [if_neg (not_or.mpr ⟨hle.not_gt, hspan.not_gt⟩), hloop, List.map_map, List.map_map]
    exact List.map_congr_left fun i _ => byDay_total hdated rfl hdays

/-- Two rows of one day, of one model and one key, of which one may have a time behind its date. -/
def pages (time : Bytes) : List (Option (Day ℕ)) :=
  [some ⟨formatDate ⟨2024, 1, 1, 0, 0, 0, 0⟩, 1, [], [([1], some 1)], [([2], some 1)]⟩,
    some ⟨formatDate ⟨2024, 1, 1, 0, 0, 0, 0⟩ ++ time, 2, [([1], some 2)], [], [([2], some 2)]⟩]

def midnight : Bytes := timeMark :: (digits 2 0 ++ colon :: (digits 2 0 ++ colon :: digits 2 0))

theorem one_spelling_conserved : Conserved (pages []) :=
  (usage_conserved_iff (pages []) (by decide)).mpr (by decide)

/-- The first row is lost. -/
theorem two_spellings_lose : ¬ Conserved (pages midnight) ∧
    (zeroFillSeries (aggregateWindow (pages midnight)).series (formatDate ⟨2024, 1, 1, 0, 0, 0, 0⟩)
      (formatDate ⟨2024, 1, 1, 0, 0, 0, 0⟩)).map DaySeries.counts = [2] :=
  ⟨fun h => absurd (h.days ⟨formatDate ⟨2024, 1, 1, 0, 0, 0, 0⟩, 1⟩ (by decide)) (by decide),
    by decide +kernel⟩

end AchProofs.Observability
