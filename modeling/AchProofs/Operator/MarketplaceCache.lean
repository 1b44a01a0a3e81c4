import Mathlib

namespace AchProofs.Operator.MarketplaceCache

/-- An entry of the filtered catalog, with whether its source is of a kind that is fetched. -/
structure Entry where
  name : String
  supported : Bool

/-- The archive and the row of a plugin, each as the fetch that it was made from. -/
structure Cached (V : Type) where
  file : Option V
  row : Option V
  deriving DecidableEq

/-- An archive is renamed or removed, or a row upserted or deleted. -/
inductive Write (V : Type)
  | file (name : String) (v : Option V)
  | row (name : String) (v : Option V)
  deriving DecidableEq

/-- One reconcile: the catalog; the archives that are renamed, by plugin name; the names of the rows
listed afterwards; the names whose row can be written or deleted; and the number of writes after
which the operator stops or a file cannot be removed. -/
structure Pass (V : Type) where
  filtered : List Entry
  renamed : String → Option V
  listed : List String
  recorded : String → Bool
  cut : ℕ

variable {V : Type}

def Write.apply (c : String → Cached V) : Write V → String → Cached V
  | .file n v => Function.update c n ⟨v, (c n).row⟩
  | .row n v => Function.update c n ⟨(c n).file, v⟩

section Reconcile

-- a name without the space around it and in lower case
variable (key : String → String)

def dedupe (seen : List String) : List Entry → List Entry
  | [] => []
  | e :: es =>
    if key e.name = "" ∨ key e.name ∈ seen then dedupe seen es
    else e :: dedupe (key e.name :: seen) es

variable (p : Pass V)

def Pass.deduped : List Entry := dedupe key [] p.filtered

def Pass.currentNames : List String := (p.deduped key).map Entry.name

def Pass.materializeMarketplacePlugin (e : Entry) : Option (String × Option V) :=
  (p.renamed e.name).map fun v => (e.name, some v)

def Pass.materialized : List (String × Option V) :=
  (p.deduped key).filterMap fun e => if e.supported then p.materializeMarketplacePlugin e else none

def Pass.vanished : List String := p.listed.filter (· ∉ p.currentNames key)

/-- A row that cannot be deleted ends the sweep. -/
def Pass.sweep : List String → List (String × Option V)
  | [] => []
  | n :: ns => (n, none) :: if p.recorded n then Pass.sweep ns else []

def Pass.changes : List (String × Option V) := p.materialized key ++ p.sweep (p.vanished key)

/-- The archive comes first, and the row follows it if it can. -/
def Pass.record (x : String × Option V) : List (Write V) :=
  .file x.1 x.2 :: if p.recorded x.1 then [.row x.1 x.2] else []

def Pass.writes : List (Write V) := ((p.changes key).flatMap p.record).take p.cut

def Pass.reconcile (c : String → Cached V) : String → Cached V := (p.writes key).foldl Write.apply c

/-- The reconcile lists the rows there are after the plugins, and comes to its end. -/
structure Pass.Completes (c : String → Cached V) : Prop where
  listed : ∀ n, n ∈ p.listed ↔
    (((p.materialized key).flatMap p.record).foldl Write.apply c n).row ≠ none
  deleted : ∀ n ∈ p.vanished key, p.recorded n = true
  uncut : ((p.changes key).flatMap p.record).length ≤ p.cut

end Reconcile

variable {key : String → String} {c : String → Cached V} {n : String} {p : Pass V}

def Write.name : Write V → String
  | .file n _ => n
  | .row n _ => n

theorem apply_of_ne {w : Write V} (h : w.name ≠ n) : w.apply c n = c n := by
  cases w with
  | file m v | row m v => exact Function.update_of_ne (Ne.symm h) ..

theorem foldl_apply_of_ne {ws : List (Write V)} (h : ∀ w ∈ ws, w.name ≠ n) :
    ws.foldl Write.apply c n = c n := by
  induction ws generalizing c with
  | nil => rfl
  | cons w ws ih =>
    rw [List.foldl_cons, ih fun v hv => h v (List.mem_cons_of_mem w hv),
      apply_of_ne (h w List.mem_cons_self)]

theorem record_name {x : String × Option V} {w : Write V} (h : w ∈ p.record x) : w.name = x.1 := by
  unfold Pass.record at h
  obtain rfl | h := List.mem_cons.mp h
  · rfl
  · split_ifs at h
    · obtain rfl := List.mem_singleton.mp h
      rfl
    · cases h

/-- However many of the writes are made: unless the last one is that of the plugin's archive, its
row has followed it. -/
theorem agree_of_take (hrec : p.recorded n = true) (xs : List (String × Option V)) (k : ℕ)
    (hlast : ∀ v, ((xs.flatMap p.record).take k).getLast? ≠ some (.file n v))
    (h : (c n).file = (c n).row ∨ ∃ v, .row n v ∈ (xs.flatMap p.record).take k) :
    (((xs.flatMap p.record).take k).foldl Write.apply c n).file =
      (((xs.flatMap p.record).take k).foldl Write.apply c n).row := by
  induction xs generalizing k c with
  | nil =>
    simp only [List.flatMap_nil, List.take_nil, List.not_mem_nil, exists_false, or_false] at h ⊢
    exact h
  | cons x xs ih =>
    rw [List.flatMap_cons, List.take_append] at hlast h ⊢
    rw [List.foldl_append]
    generalize hrest : (xs.flatMap p.record).take (k - (p.record x).length) = rest at hlast h ⊢
    have hlast' : ∀ v, rest.getLast? ≠ some (.file n v) := fun v hv => by
      refine hlast v ?_
      rw [List.getLast?_append, hv, Option.some_or]
    by_cases hx : x.1 = n
    · obtain ⟨m, v⟩ := x
      obtain rfl : m = n := hx
      have hrecord : p.record (m, v) = [.file m v, .row m v] := by simp [Pass.record, hrec]
      rw [hrecord] at hlast hrest h ⊢
      obtain _ | _ | k := k
      · obtain rfl : [] = rest := hrest
        simpa using h
      · obtain rfl : [] = rest := hrest
        exact absurd rfl (hlast v)
      · rw [← hrest] at hlast' ⊢
        exact ih _ hlast' (.inl (by simp [Write.apply]))
    · have hother : ∀ w ∈ (p.record x).take k, w.name ≠ n := fun w hw =>
        record_name (List.mem_of_mem_take hw) ▸ hx
      rw [← hrest] at hlast' h ⊢
      refine ih _ hlast' ?_
      rw [foldl_apply_of_ne hother]
      refine h.imp_right fun ⟨v, hv⟩ => ⟨v, ?_⟩
      obtain hv | hv := List.mem_append.mp hv
      · exact absurd rfl (hother _ hv)
      · exact hv

theorem foldl_sweep {ns : List String} (h : ∀ m ∈ ns, p.recorded m = true) :
    ((p.sweep ns).flatMap p.record).foldl Write.apply c n =
      if n ∈ ns then ⟨none, none⟩ else c n := by
  induction ns generalizing c with
  | nil => rfl
  | cons m ns ih =>
    have hm := h m List.mem_cons_self
    rw [Pass.sweep, if_pos hm, List.flatMap_cons, List.foldl_append,
      ih fun k hk => h k (List.mem_cons_of_mem m hk)]
    by_cases hn : n = m
    · simp [hn, hm, Pass.record, Write.apply]
    · simp [hn, hm, Pass.record, Write.apply]

/-- A reconcile that comes to its end leaves a plugin that failed as it was. Of a name outside the
catalog it leaves at most an archive that had no row. -/
theorem reconcile_of_completes (h : p.Completes key c)
    (hn : n ∈ p.currentNames key → p.renamed n = none) :
    p.reconcile key c n =
      if n ∈ p.currentNames key ∨ (c n).row = none then c n else ⟨none, none⟩ := by
  have hfirst : ((p.materialized key).flatMap p.record).foldl Write.apply c n = c n := by
    refine foldl_apply_of_ne fun w hw hwn => ?_
    obtain ⟨x, hx, hw⟩ := List.mem_flatMap.mp hw
    obtain ⟨e, he, hx⟩ := List.mem_filterMap.mp hx
    split_ifs at hx
    obtain ⟨v, hv, rfl⟩ := Option.map_eq_some_iff.mp hx
    obtain rfl : e.name = n := (record_name hw).symm.trans hwn
    rw [hn (List.mem_map_of_mem he)] at hv
    cases hv
  have hvanished : n ∈ p.vanished key ↔ ¬ (n ∈ p.currentNames key ∨ (c n).row = none) := by
    rw [Pass.vanished, List.mem_filter, h.listed n, hfirst, decide_eq_true_iff, and_comm, not_or]
  rw [Pass.reconcile, Pass.writes, List.take_of_length_le h.uncut, Pass.changes,
    List.flatMap_append, List.foldl_append, foldl_sweep h.deleted, hfirst,
    if_congr hvanished rfl rfl, ite_not]

/-- Of two archives, only the one with a row is swept. -/
theorem archive_without_row_stays :
    let p : Pass ℕ := ⟨[], fun _ => none, ["b"], fun _ => true, 2⟩
    let c : String → Cached ℕ := fun n => ⟨some 1, if n = "b" then some 1 else none⟩
    p.reconcile id c "a" = ⟨some 1, none⟩ ∧ p.reconcile id c "b" = ⟨none, none⟩ := by
  intro p c
  have h : p.Completes id c :=
    ⟨by simp [p, c, Pass.materialized, Pass.deduped, dedupe], by decide, by decide⟩
  exact ⟨reconcile_of_completes h (by decide), reconcile_of_completes h (by decide)⟩

end AchProofs.Operator.MarketplaceCache
