import AchProofs.Cli.ExtractFits
import AchProofs.Cli.ExtractTurn

namespace AchProofs.Cli.Extract

open Foundation Foundation.Links

inductive ResourceKind
  | plugin
  | artifact
  | prompt
  | skill
  | other
  deriving DecidableEq, Repr

/-- The caps as natural numbers: the source's are `int64` and `int`, whose bounds no sum of an
extraction reaches. The removal of a file that was refused is taken to succeed. -/
structure Limits where
  maxExtractedPluginBytes : ℕ
  maxExtractedArtifactBytes : ℕ
  maxExtractedSkillBytes : ℕ
  maxEntries : ℕ

def Limits.maxBytesForKind (l : Limits) : ResourceKind → ℕ
  | .plugin => l.maxExtractedPluginBytes
  | .artifact => l.maxExtractedArtifactBytes
  | .skill => l.maxExtractedSkillBytes
  | .prompt => l.maxExtractedSkillBytes
  | .other => l.maxExtractedPluginBytes

def Limits.config (l : Limits) (dst : List Name) (kind : ResourceKind) (allowSymlinks : Bool) :
    Config :=
  ⟨dst, l.maxEntries, l.maxBytesForKind kind, allowSymlinks⟩

/-- What `io.Copy` reads at a time, and how much of it reaches the disk if the write fails. -/
structure Chunk where
  length : ℕ
  short : Option ℕ
  deriving DecidableEq, Repr

/-- The body of a regular file, and what goes wrong once its chunks are read. -/
structure Payload where
  chunks : List Chunk
  readFails : Bool
  closeFails : Bool
  hashFails : Bool
  deriving DecidableEq, Repr

def Payload.total (b : Payload) : ℕ := (b.chunks.map Chunk.length).sum

def Payload.broken (b : Payload) : Bool :=
  b.chunks.any (fun c => c.short.isSome) || b.readFails || b.closeFails || b.hashFails

/-- `io.Copy` through a `capWriter`: the bytes in the file, and whether all were written. -/
def copy (capped : Bool) (maxBytes : ℕ) : ℕ → List Chunk → ℕ × Bool
  | written, [] => (written, true)
  | written, c :: cs =>
    if capped ∧ written + c.length > maxBytes then (written, false)
    else
      match c.short with
      | some n => (written + min n c.length, false)
      | none => copy capped maxBytes (written + c.length) cs

/-- An archive entry with its body. The size and the failures of a regular file are those of the
body. -/
structure Packed where
  entry : Entry
  body : Payload
  deriving DecidableEq, Repr

def Packed.coarse (i : Packed) : Entry :=
  match i.entry.kind with
  | .reg _ _ => { i.entry with kind := .reg i.body.total i.body.broken }
  | _ => i.entry

/-- The state of `Extract` with the size of each file and the paths of `WrittenFiles`. -/
structure Volume where
  state : State
  size : List Name → ℕ
  writtenFiles : List (List Name)

/-- `writeRegular`: the file is created, filled as far as the copy goes, and removed on failure. -/
def streamRegular (cfg : Config) (v : Volume) (rel : List Name) (body : Payload) : Volume × Bool :=
  match mkdirAll cfg.dst v.state.disk rel.dropLast.reverse with
  | (d, false) => ({ v with state := { v.state with disk := d } }, false)
  | (d, true) =>
    match freePlace cfg.dst d.tree rel with
    | none => ({ v with state := { v.state with disk := d } }, false)
    | some place =>
      let (written, copied) :=
        copy (0 < cfg.maxBytes) (cfg.maxBytes - v.state.bytesWritten) 0 body.chunks
      if !copied || body.readFails || body.closeFails || body.hashFails then
        (⟨{ v.state with disk := (d.put place .file).remove place },
          Function.update v.size place written, v.writtenFiles⟩, false)
      else
        (⟨{ v.state with
            disk := d.put place .file
            bytesWritten := v.state.bytesWritten + written },
          Function.update v.size place written, v.writtenFiles ++ [rel]⟩, true)

/-- One turn of the loop of `Extract`, and whether it goes on. -/
def streamEntry (cfg : Config) (v : Volume) (i : Packed) : Volume × Bool :=
  let v := { v with state := { v.state with entriesSeen := v.state.entriesSeen + 1 } }
  if v.state.entriesSeen > cfg.maxEntries then (v, false)
  else
    match i.entry.paxPath.bind (checkSafeRel cfg.dst) with
    | some _ => (v, false)
    | none =>
      match checkSafeRel cfg.dst i.entry.name with
      | some _ => (v, false)
      | none =>
        match i.entry.kind with
        | .reg _ _ => streamRegular cfg v i.entry.rel i.body
        | kind =>
          let r := writeEntry cfg v.state i.entry.rel kind
          ({ v with state := r.1 }, r.2.isNone)

/-- `Extract` on the entries that can be read; `complete` says that the archive ends after them, and
that neither the reader failed there nor the context was cancelled. -/
def extractStream (cfg : Config) (complete : Bool) : Volume → List Packed → Volume × Bool
  | v, [] => (v, complete)
  | v, i :: is =>
    match streamEntry cfg v i with
    | (v', false) => (v', false)
    | (v', true) => extractStream cfg complete v' is

def Kind.bytes : Kind → ℕ
  | .reg size _ => size
  | _ => 0

section Counts

variable {α : Type} {cfg : Config} {s : State} {f : α → Entry} {e : Entry}

theorem Turn.counts {s' : State} (h : Turn cfg s e (s', none)) :
    s'.entriesSeen = s.entriesSeen + 1 ∧ s'.entriesSeen ≤ cfg.maxEntries ∧
      (s'.disk.newest e.kind).length ≤ 1 ∧
      s'.bytesWritten = s.bytesWritten + ((s'.disk.newest e.kind).map fun _ => e.kind.bytes).sum ∧
      (0 < cfg.maxBytes → s.bytesWritten ≤ cfg.maxBytes → s'.bytesWritten ≤ cfg.maxBytes) := by
  cases h with
  | pass d _ hcount hreg hlink =>
    refine ⟨rfl, hcount, ?_, ?_, fun _ h => h⟩
    all_goals
      cases hkind : e.kind with
      | reg size broken => exact absurd hkind (hreg size broken)
      | symlink linkname => exact absurd hkind (hlink linkname)
      | _ => simp [Disk.newest]
  | file d place size hkind _ _ hcount hcap =>
    rw [hkind]
    refine ⟨rfl, hcount,
      by simp [Disk.newest, Disk.put], by simp [Disk.newest, Disk.put, Kind.bytes],
      fun hpos hle => ?_⟩
    show s.bytesWritten + size ≤ cfg.maxBytes
    omega
  | link d place linkname hkind _ _ hcount =>
    rw [hkind]
    exact ⟨rfl, hcount,
      by simp [Disk.newest, Disk.put], by simp [Disk.newest, Disk.put, Kind.bytes],
      fun _ h => h⟩

theorem Turn.exists_newest {s' : State} {size : ℕ} {broken : Bool} (h : Turn cfg s e (s', none))
    (hreg : e.kind = .reg size broken) : ∃ place, s'.disk.newest e.kind = [place] := by
  cases h with
  | pass _ _ _ hno => exact absurd hreg (hno size broken)
  | link _ _ _ hkind => cases hkind.symm.trans hreg
  | file d place _ hkind =>
    rw [hkind]
    exact ⟨place, rfl⟩

theorem Turn.bytes_of_fail {s' : State} {err : ExtractError} (h : Turn cfg s e (s', some err)) :
    s'.bytesWritten = s.bytesWritten := by
  cases h <;> rfl

theorem extract_counts (cfg : Config) (f : α → Entry) (s : State) (xs : List α) :
    (extract cfg s (xs.map f)).1.bytesWritten =
        s.bytesWritten + ((leftovers cfg f s xs).map fun p => (f p.2).kind.bytes).sum ∧
      (0 < cfg.maxBytes → s.bytesWritten ≤ cfg.maxBytes →
        (extract cfg s (xs.map f)).1.bytesWritten ≤ cfg.maxBytes) ∧
      (s.entriesSeen ≤ cfg.maxEntries →
        s.entriesSeen + (leftovers cfg f s xs).length ≤ cfg.maxEntries) := by
  induction xs generalizing s with
  | nil => simp [extract, leftovers]
  | cons x xs ih =>
    have hturn := extractEntry_turn cfg s (f x)
    rw [List.map_cons, extract, leftovers]
    generalize extractEntry cfg s (f x) = r at hturn
    obtain ⟨s', err⟩ := r
    cases err with
    | some err =>
      dsimp only
      rw [hturn.bytes_of_fail]
      simp
    | none =>
      obtain ⟨hseen, hmax, hone, hbytes, hcap⟩ := hturn.counts
      obtain ⟨ihbytes, ihcap, ihcount⟩ := ih s'
      dsimp only
      refine ⟨?_, fun hpos hle => ihcap hpos (hcap hpos hle), fun _ => ?_⟩
      · rw [ihbytes, hbytes, List.map_append, List.map_map, List.sum_append, Nat.add_assoc]
        rfl
      · have := ihcount hmax
        rw [List.length_append, List.length_map]
        omega

theorem statFile_of_freePlace {dst rel place : List Name} {tree tree' : Tree Name}
    (h : freePlace dst tree rel = some place) (hext : ∀ q, tree q ≠ none → tree' q = tree q)
    (hfile : tree' place = some .file) : statFile tree' dst rel = some place := by
  rcases List.eq_nil_or_concat rel with rfl | ⟨up, n, rfl⟩
  · simp [freePlace] at h
  · rw [List.concat_eq_append] at h ⊢
    rw [freePlace_concat] at h
    split at h
    · cases h
    · rename_i parent hwalk
      split_ifs at h
      cases h
      have hwalk' : walk tree' dirEnter kernelHops dst (names up) = .ok parent :=
        walk_extends (fun q node hq => (hext q (by simp [hq])).trans hq) hwalk
      have hlast : ∀ k, walk tree' openEnter k parent [.name n] = .ok (parent ++ [n]) := by
        intro k
        refine (walk_pass (fun t => ?_) ?_).trans walk_nil
        · rw [hfile]
          simp
        · rw [hfile]
          rfl
      have hopen :
          walk tree' openEnter kernelHops dst (names (up ++ [n])) = .ok (parent ++ [n]) := by
        rw [names_append]
        exact walk_then (fun _ => rfl) hwalk' hlast
      rw [statFile, hopen]
      exact if_pos hfile

theorem statFile_of_mem_leftovers {place : List Name} {x : α} (xs : List α)
    (h : (place, x) ∈ leftovers cfg f s xs) (hreg : ∃ size broken, (f x).kind = .reg size broken) :
    statFile (extract cfg s (xs.map f)).1.disk.tree cfg.dst (f x).rel = some place := by
  induction xs generalizing s with
  | nil => simp [leftovers] at h
  | cons y xs ih =>
    have hturn := extractEntry_turn cfg s (f y)
    rw [leftovers] at h
    rw [List.map_cons, extract]
    generalize extractEntry cfg s (f y) = r at hturn h
    obtain ⟨s', err⟩ := r
    cases err with
    | some err => simp at h
    | none =>
      dsimp only at h ⊢
      rcases List.mem_append.mp h with h | h
      · obtain ⟨q, hq, hpair⟩ := List.mem_map.mp h
        cases hpair
        have hrest := extract_leaves cfg f s' xs
        cases hturn with
        | pass d _ _ hno => exact absurd hreg (by simp [hno])
        | link d p linkname hkind => exact absurd hreg (by simp [hkind])
        | file d p size hkind hd hfree =>
          rw [hkind] at hq
          obtain rfl : place = p := List.mem_singleton.mp hq
          obtain ⟨_, _, _, hnone, _⟩ := freePlace_eq_some hfree
          have hput := leaves_put d (by simp : Node.file ≠ .dir) hnone
          refine statFile_of_freePlace hfree (fun q hq => ?_) ?_
          · have hkept := hput.kept q hq
            rw [hrest.kept q (by simpa [hkept] using hq), hkept]
          · exact (hrest.kept place (by simp [d.put_self])).trans (d.put_self ..)
      · exact ih h

end Counts

section Copy

variable (capped : Bool) (maxBytes : ℕ)

theorem copy_ok_iff (written : ℕ) (cs : List Chunk) (hw : capped = true → written ≤ maxBytes) :
    (copy capped maxBytes written cs).2 = true ↔
      cs.any (fun c => c.short.isSome) = false ∧
        (capped = true → written + (cs.map Chunk.length).sum ≤ maxBytes) := by
  induction cs generalizing written with
  | nil => simpa [copy] using hw
  | cons c cs ih =>
    rw [copy, List.any_cons, List.map_cons, List.sum_cons]
    split_ifs with hcap
    · refine iff_of_false (by simp) fun h => ?_
      have := h.2 hcap.1
      omega
    · have hw' : capped = true → written + c.length ≤ maxBytes := fun h => by
        rw [not_and, not_lt] at hcap
        exact hcap h
      cases hshort : c.short with
      | some n => simp
      | none =>
        dsimp only
        rw [ih _ hw', Nat.add_assoc]
        simp

theorem copy_written (written : ℕ) (cs : List Chunk)
    (h : (copy capped maxBytes written cs).2 = true) :
    (copy capped maxBytes written cs).1 = written + (cs.map Chunk.length).sum := by
  induction cs generalizing written with
  | nil => simp [copy]
  | cons c cs ih =>
    rw [copy] at h ⊢
    rw [List.map_cons, List.sum_cons]
    split_ifs at h ⊢
    cases hshort : c.short with
    | some n => simp [hshort] at h
    | none =>
      rw [hshort] at h
      rw [← Nat.add_assoc]
      exact ih _ h

end Copy

/-- How a turn on an item is a turn on its entry, and what it does to sizes and written files. -/
structure Streamed (cfg : Config) (v : Volume) (i : Packed) (r : Volume × Bool) : Prop where
  state : r.1.state = (extractEntry cfg v.state i.coarse).1
  ok_iff : r.2 = true ↔ (extractEntry cfg v.state i.coarse).2 = none
  kept : ∀ q, v.state.disk.tree q ≠ none → r.1.size q = v.size q
  file : r.2 = true → (∃ size broken, i.coarse.kind = .reg size broken) →
    (∀ place ∈ r.1.state.disk.newest i.coarse.kind, r.1.size place = i.body.total) ∧
      r.1.writtenFiles = v.writtenFiles ++ [i.coarse.rel]
  other : (r.2 = true → ∀ size broken, i.coarse.kind ≠ .reg size broken) →
    r.1.writtenFiles = v.writtenFiles

section Stream

variable {cfg : Config} {v : Volume} {i : Packed}

theorem coarse_reg {size : ℕ} {broken : Bool} (h : i.entry.kind = .reg size broken) :
    i.coarse = { i.entry with kind := .reg i.body.total i.body.broken } := by
  rw [Packed.coarse, h]

theorem coarse_other (h : ∀ size broken, i.entry.kind ≠ .reg size broken) : i.coarse = i.entry := by
  rw [Packed.coarse]
  cases hk : i.entry.kind with
  | reg size broken => exact absurd hk (h size broken)
  | _ => rfl

theorem stream_fails_iff (cfg : Config) (bytes : ℕ) (b : Payload) :
    (!(copy (0 < cfg.maxBytes) (cfg.maxBytes - bytes) 0 b.chunks).2 || b.readFails ||
      b.closeFails ||
        b.hashFails) = true ↔
      b.broken = true ∨ 0 < cfg.maxBytes ∧ cfg.maxBytes - bytes < b.total := by
  have hcopy := copy_ok_iff (decide (0 < cfg.maxBytes)) (cfg.maxBytes - bytes) 0 b.chunks
    (fun _ => Nat.zero_le _)
  rw [Nat.zero_add, decide_eq_true_iff] at hcopy
  have htotal : (b.chunks.map Chunk.length).sum = b.total := rfl
  rw [htotal] at hcopy
  simp only [Bool.or_eq_true, Bool.not_eq_true', Payload.broken]
  rw [← Bool.not_eq_true, hcopy]
  cases hs : b.chunks.any fun c => c.short.isSome <;> grind

theorem streamRegular_spec (cfg : Config) (v : Volume) (rel : List Name) (b : Payload) :
    (streamRegular cfg v rel b).1.state = (writeRegular cfg v.state rel b.total b.broken).1 ∧
      ((streamRegular cfg v rel b).2 = true ↔
        (writeRegular cfg v.state rel b.total b.broken).2 = none) ∧
      (∀ q, v.state.disk.tree q ≠ none → (streamRegular cfg v rel b).1.size q = v.size q) ∧
      ((streamRegular cfg v rel b).2 = true →
        (∀ place ∈ (streamRegular cfg v rel b).1.state.disk.made.take 1,
          (streamRegular cfg v rel b).1.size place = b.total) ∧
        (streamRegular cfg v rel b).1.writtenFiles = v.writtenFiles ++ [rel]) ∧
      ((streamRegular cfg v rel b).2 = false →
        (streamRegular cfg v rel b).1.writtenFiles = v.writtenFiles) := by
  have hadds := mkdirAll_addsDirs cfg.dst v.state.disk rel.dropLast.reverse
  unfold streamRegular writeRegular
  generalize mkdirAll cfg.dst v.state.disk rel.dropLast.reverse = made at hadds
  obtain ⟨d, ok⟩ := made
  cases ok with
  | false => simp
  | true =>
    dsimp only
    cases hplace : freePlace cfg.dst d.tree rel with
    | none => simp
    | some place =>
      obtain ⟨_, _, _, hfree, _⟩ := freePlace_eq_some hplace
      have hsize :
          ∀ q n, v.state.disk.tree q ≠ none → Function.update v.size place n q = v.size q := by
        intro q n hq
        refine Function.update_of_ne ?_ ..
        rintro rfl
        rw [← hadds.leaves.kept q hq] at hq
        exact hq hfree
      have hfail := stream_fails_iff cfg v.state.bytesWritten b
      have hcopied :=
        copy_written (decide (0 < cfg.maxBytes)) (cfg.maxBytes - v.state.bytesWritten) 0
        b.chunks
      dsimp only
      generalize copy (decide (0 < cfg.maxBytes)) (cfg.maxBytes - v.state.bytesWritten) 0 b.chunks =
        c
        at hfail hcopied
      obtain ⟨written, copied⟩ := c
      dsimp only at hfail hcopied ⊢
      by_cases hf : (!copied || b.readFails || b.closeFails || b.hashFails) = true
      · have hundo : ∃ err, (if b.broken = true then
            (({ v.state with disk := (d.put place .file).remove place } : State),
              some ExtractError.body)
            else if 0 < cfg.maxBytes ∧ cfg.maxBytes - v.state.bytesWritten < b.total then
              ({ v.state with disk := (d.put place .file).remove place }, some .bombCapExceeded)
            else ({ v.state with
                disk := d.put place .file
                bytesWritten := v.state.bytesWritten + b.total }, none)) =
              ({ v.state with disk := (d.put place .file).remove place }, some err) := by
          rcases hfail.mp hf with hbroken | hcap
          · exact ⟨_, if_pos hbroken⟩
          · cases hb : b.broken with
            | true => exact ⟨_, rfl⟩
            | false => exact ⟨_, if_pos hcap⟩
        obtain ⟨err, herr⟩ := hundo
        rw [if_pos hf, herr]
        exact ⟨rfl, by simp, fun q => hsize q _, by simp, fun _ => rfl⟩
      · obtain ⟨hbroken, hcap⟩ := not_or.mp (hfail.not.mp hf)
        have hw : written = b.total := by
          rw [hcopied (by grind), Nat.zero_add]
          rfl
        rw [if_neg hf, if_neg hbroken, if_neg hcap, hw]
        refine ⟨rfl, iff_of_true rfl rfl, fun q => hsize q _, fun _ => ⟨fun q hq => ?_, rfl⟩,
          by simp⟩
        rw [List.mem_singleton.mp hq]
        exact Function.update_self ..

theorem streamed_of_stop (err : ExtractError)
    (h : extractEntry cfg v.state i.coarse =
      ({ v.state with entriesSeen := v.state.entriesSeen + 1 }, some err)) :
    Streamed cfg v i
      ({ v with state := { v.state with entriesSeen := v.state.entriesSeen + 1 } }, false) :=
  ⟨by rw [h], by simp [h], fun _ _ => rfl, by simp, fun _ => rfl⟩

theorem streamEntry_streamed (cfg : Config) (v : Volume) (i : Packed) :
    Streamed cfg v i (streamEntry cfg v i) := by
  have hname : i.coarse.name = i.entry.name ∧ i.coarse.paxPath = i.entry.paxPath := by
    unfold Packed.coarse
    split <;> exact ⟨rfl, rfl⟩
  unfold streamEntry
  dsimp only
  split_ifs with hcount
  · exact streamed_of_stop .tooManyEntries (by simp only [extractEntry, hcount, if_true])
  · split
    · rename_i r hr
      rw [← hname.2] at hr
      exact streamed_of_stop (.unsafePaxPath r) (by simp only [extractEntry, hcount, hr, if_false])
    · rename_i hpax
      rw [← hname.2] at hpax
      split
      · rename_i r hr
        rw [← hname.1] at hr
        exact streamed_of_stop (.unsafeTarEntry r)
          (by simp only [extractEntry, hcount, hpax, hr, if_false])
      · rename_i hsafe
        rw [← hname.1] at hsafe
        have hentry : extractEntry cfg v.state i.coarse = writeEntry cfg
            { v.state with entriesSeen := v.state.entriesSeen + 1 } i.coarse.rel i.coarse.kind := by
          simp [extractEntry, hcount, hpax, hsafe, Entry.rel]
        have hrel : i.coarse.rel = i.entry.rel := by rw [Entry.rel, hname.1, Entry.rel]
        split
        · rename_i size broken hkind
          have hcoarse := coarse_reg hkind
          have hk : i.coarse.kind = .reg i.body.total i.body.broken := by rw [hcoarse]
          rw [hk, hrel, writeEntry] at hentry
          obtain ⟨hstate, hok, hkept, hfile, hother⟩ := streamRegular_spec cfg
            { v with state := { v.state with entriesSeen := v.state.entriesSeen + 1 } } i.entry.rel
              i.body
          refine ⟨?_, ?_, hkept, fun h _ => ?_, fun h => ?_⟩
          · rw [hentry, hstate]
          · rw [hentry, hok]
          · rw [hk, hrel]
            exact hfile h
          · refine hother (Bool.eq_false_iff.mpr fun hr => h hr _ _ hk)
        · rename_i kind hkind
          have hcoarse := coarse_other hkind
          rw [hcoarse] at hentry
          refine ⟨?_, ?_, fun _ _ => rfl, fun _ hreg => ?_, fun _ => rfl⟩
          · rw [hcoarse, hentry]
          · rw [hcoarse, hentry, Option.isNone_iff_eq_none]
          · obtain ⟨size, broken, h⟩ := hreg
            rw [hcoarse] at h
            exact absurd h (hkind size broken)

def Packed.isFile (i : Packed) : Bool :=
  match i.entry.kind with
  | .reg _ _ => true
  | _ => false

theorem isFile_iff : i.isFile = true ↔ ∃ size broken, i.coarse.kind = .reg size broken := by
  rw [Packed.isFile, Packed.coarse]
  cases hkind : i.entry.kind <;> simp [hkind]

theorem extractStream_run (cfg : Config) (complete : Bool) (v : Volume) (is : List Packed) :
    (extractStream cfg complete v is).1.state = (extract cfg v.state (is.map Packed.coarse)).1 ∧
      (∀ q, v.state.disk.tree q ≠ none → (extractStream cfg complete v is).1.size q = v.size q) ∧
      (∀ p ∈ leftovers cfg Packed.coarse v.state is, p.2.isFile = true →
        (extractStream cfg complete v is).1.size p.1 = p.2.body.total) ∧
      (extractStream cfg complete v is).1.writtenFiles = v.writtenFiles ++
        ((leftovers cfg Packed.coarse v.state is).filter fun p => p.2.isFile).map fun p =>
          p.2.coarse.rel := by
  induction is generalizing v with
  | nil => simp [extractStream, extract, leftovers]
  | cons i is ih =>
    obtain ⟨hstate, hok, hkept, hfile, hother⟩ := streamEntry_streamed cfg v i
    have hturn := extractEntry_turn cfg v.state i.coarse
    rw [extractStream, List.map_cons, extract, leftovers]
    generalize streamEntry cfg v i = r at hstate hok hkept hfile hother
    generalize extractEntry cfg v.state i.coarse = c at hstate hok hturn
    obtain ⟨v', ok⟩ := r
    obtain ⟨s', err⟩ := c
    dsimp only at hstate hok hkept hfile hother ⊢
    subst hstate
    cases err with
    | some err =>
      obtain rfl : ok = false := Bool.eq_false_iff.mpr fun h => by cases hok.mp h
      refine ⟨rfl, hkept, by simp, ?_⟩
      simpa using hother (by simp)
    | none =>
      obtain rfl : ok = true := hok.mpr rfl
      obtain ⟨hleaves, hnode, -⟩ := newest_of_turn hturn
      obtain ⟨ihstate, ihkept, ihsizes, ihwritten⟩ := ih v'
      dsimp only
      refine ⟨ihstate, fun q hq => ?_, fun p hp hp' => ?_, ?_⟩
      · rw [ihkept q (by rwa [hleaves.kept q hq]), hkept q hq]
      · rcases List.mem_append.mp hp with hp | hp
        · obtain ⟨place, hplace, rfl⟩ := List.mem_map.mp hp
          obtain ⟨size, broken, hkind⟩ := isFile_iff.mp hp'
          have hthere := (hnode place hplace size broken hkind).2
          exact (ihkept place (by simp [hthere])).trans
            ((hfile rfl ⟨size, broken, hkind⟩).1 place hplace)
        · exact ihsizes p hp hp'
      · rw [ihwritten, List.filter_append, List.map_append, ← List.append_assoc]
        congr 1
        cases hf : i.isFile with
        | true =>
          obtain ⟨size, broken, hkind⟩ := isFile_iff.mp hf
          obtain ⟨place, hplace⟩ := hturn.exists_newest hkind
          rw [(hfile rfl ⟨size, broken, hkind⟩).2, hplace]
          simp [hf]
        | false =>
          have hno : ∀ size broken, i.coarse.kind ≠ .reg size broken := fun size broken hkind => by
            simp [isFile_iff.mpr ⟨size, broken, hkind⟩] at hf
          rw [hother fun _ => hno]
          simp [List.filter_map, Function.comp_def, hf]

theorem leftover_cases {s : State} {is : List Packed} {place : List Name}
    (h : (place, i) ∈ leftovers cfg Packed.coarse s is) :
    (i.isFile = true ∧ i.body.broken = false ∧
        (extract cfg s (is.map Packed.coarse)).1.disk.tree place = some .file) ∨
      i.isFile = false ∧
        ∃ t, (extract cfg s (is.map Packed.coarse)).1.disk.tree place = some (.link t) := by
  rcases (tree_of_mem_leftovers is h).2 with ⟨⟨size, hkind⟩, hfile⟩ | ⟨linkname, hkind, hlink⟩
  · have hreg := isFile_iff.mpr ⟨size, false, hkind⟩
    refine .inl ⟨hreg, ?_, hfile⟩
    rw [Packed.isFile] at hreg
    split at hreg
    · rename_i size' broken' hentry
      rw [coarse_reg hentry] at hkind
      cases hb : i.body.broken with
      | false => rfl
      | true =>
        rw [hb] at hkind
        cases hkind
    · cases hreg
  · refine .inr ⟨Bool.eq_false_iff.mpr fun hreg => ?_, _, hlink⟩
    obtain ⟨size, broken, hkind'⟩ := isFile_iff.mp hreg
    cases hkind.symm.trans hkind'

theorem bytes_coarse (i : Packed) : i.coarse.kind.bytes = if i.isFile then i.body.total else 0 := by
  rw [Packed.coarse, Packed.isFile]
  cases hkind : i.entry.kind <;> simp [hkind, Kind.bytes]

theorem sum_bytes (ps : List (List Name × Packed)) :
    (ps.map fun p => p.2.coarse.kind.bytes).sum =
      ((ps.filter fun p => p.2.isFile).map fun p => p.2.body.total).sum := by
  induction ps with
  | nil => rfl
  | cons p ps ih =>
    rw [List.map_cons, List.sum_cons, ih, bytes_coarse]
    cases hf : p.2.isFile with
    | true => simp [hf]
    | false => simp [hf]

end Stream

def Volume.start (tree : Tree Name) : Volume := ⟨Extract.start tree, fun _ => 0, []⟩

/-- The files and the links that an extraction leaves, and how they keep to its limits: the files
have at most so many bytes together, files and links are at most so many, each file has all the
bytes of its body, and after a success the paths returned lead to just these files and the bytes
returned are theirs. -/
structure WithinCaps (cfg : Config) (tree : Tree Name) (items : List Packed) (r : Volume × Bool)
    (files links : List (List Name)) : Prop where
  distinct : files.Nodup ∧ links.Nodup
  mem_files : ∀ q, q ∈ files ↔ tree q = none ∧ r.1.state.disk.tree q = some .file
  mem_links : ∀ q, q ∈ links ↔ tree q = none ∧ ∃ t, r.1.state.disk.tree q = some (.link t)
  bytes : (files.map r.1.size).sum ≤ cfg.maxBytes
  entries : files.length + links.length ≤ cfg.maxEntries
  whole : ∀ q ∈ files, ∃ i ∈ items, i.isFile = true ∧ i.body.broken = false ∧
    r.1.size q = i.body.total
  listed : r.2 = true → r.1.writtenFiles.map (statFile r.1.state.disk.tree cfg.dst) =
    files.map some ∧
    r.1.state.bytesWritten = (files.map r.1.size).sum

section Within

variable {cfg : Config} {tree : Tree Name} {items : List Packed}

def filesLeft (cfg : Config) (tree : Tree Name) (items : List Packed) : List (List Name × Packed) :=
  (leftovers cfg Packed.coarse (start tree) items).filter fun p => p.2.isFile

def linksLeft (cfg : Config) (tree : Tree Name) (items : List Packed) : List (List Name × Packed) :=
  (leftovers cfg Packed.coarse (start tree) items).filter fun p => !p.2.isFile

theorem mem_filesLeft_iff (q : List Name) :
    q ∈ (filesLeft cfg tree items).map Prod.fst ↔
      tree q = none ∧ (extract cfg (start tree) (items.map Packed.coarse)).1.disk.tree q =
        some .file := by
  have hleaves := extract_leaves cfg Packed.coarse (start tree) items
  constructor
  · intro hq
    obtain ⟨p, hp, rfl⟩ := List.mem_map.mp hq
    obtain ⟨hp, hfile⟩ := List.mem_filter.mp hp
    refine ⟨hleaves.fresh _ (List.mem_map_of_mem hp), ?_⟩
    rcases leftover_cases hp with ⟨-, -, htree⟩ | ⟨hno, -⟩
    · exact htree
    · cases hno.symm.trans hfile
  · rintro ⟨hnone, htree⟩
    obtain ⟨i, hi⟩ := exists_of_leaf items (leaf_of_eq htree (by simp)) hnone
    refine List.mem_map.mpr ⟨(q, i), List.mem_filter.mpr ⟨hi, ?_⟩, rfl⟩
    rcases leftover_cases hi with ⟨hfile, -⟩ | ⟨-, t, hlink⟩
    · exact hfile
    · cases htree.symm.trans hlink

theorem mem_linksLeft_iff (q : List Name) :
    q ∈ (linksLeft cfg tree items).map Prod.fst ↔
      tree q = none ∧
        ∃ t, (extract cfg (start tree) (items.map Packed.coarse)).1.disk.tree q =
          some (.link t) := by
  have hleaves := extract_leaves cfg Packed.coarse (start tree) items
  constructor
  · intro hq
    obtain ⟨p, hp, rfl⟩ := List.mem_map.mp hq
    obtain ⟨hp, hlink⟩ := List.mem_filter.mp hp
    refine ⟨hleaves.fresh _ (List.mem_map_of_mem hp), ?_⟩
    rcases leftover_cases hp with ⟨hfile, -⟩ | ⟨-, htree⟩
    · simp [hfile] at hlink
    · exact htree
  · rintro ⟨hnone, t, htree⟩
    obtain ⟨i, hi⟩ := exists_of_leaf items (leaf_of_eq htree (by simp)) hnone
    refine List.mem_map.mpr ⟨(q, i), List.mem_filter.mpr ⟨hi, ?_⟩, rfl⟩
    rcases leftover_cases hi with ⟨-, -, hfile⟩ | ⟨hno, -⟩
    · cases htree.symm.trans hfile
    · simp [hno]

theorem withinCaps (complete : Bool) (hcap : 0 < cfg.maxBytes) :
    WithinCaps cfg tree items (extractStream cfg complete (Volume.start tree) items)
      ((filesLeft cfg tree items).map Prod.fst) ((linksLeft cfg tree items).map Prod.fst) := by
  obtain ⟨hstate, -, hsizes, hwritten⟩ := extractStream_run cfg complete (Volume.start tree) items
  generalize extractStream cfg complete (Volume.start tree) items = r at hstate hsizes hwritten
  have hnodup := (extract_leaves cfg Packed.coarse (start tree) items).nodup
  obtain ⟨hbytes, hle, hcount⟩ := extract_counts cfg Packed.coarse (start tree) items
  have hdisk : r.1.state = (extract cfg (start tree) (items.map Packed.coarse)).1 := hstate
  have hsize : ∀ p ∈ filesLeft cfg tree items, r.1.size p.1 = p.2.body.total := fun p hp =>
    hsizes p (List.mem_filter.mp hp).1 (List.mem_filter.mp hp).2
  have hsum :
      r.1.state.bytesWritten = (((filesLeft cfg tree items).map Prod.fst).map r.1.size).sum := by
    have hmap : (filesLeft cfg tree items).map (r.1.size ∘ Prod.fst) = _ :=
      List.map_congr_left hsize
    rw [hdisk, hbytes, sum_bytes, List.map_map, hmap]
    exact Nat.zero_add _
  refine ⟨⟨?_, ?_⟩, fun q => ?_, fun q => ?_, ?_, ?_, fun q hq => ?_, fun _ => ⟨?_, hsum⟩⟩
  · exact (List.filter_sublist.map _).nodup hnodup
  · exact (List.filter_sublist.map _).nodup hnodup
  · rw [hdisk, mem_filesLeft_iff]
  · rw [hdisk, mem_linksLeft_iff]
  · rw [← hsum, hdisk]
    exact hle hcap (Nat.zero_le _)
  · have hall : (start tree).entriesSeen + _ ≤ cfg.maxEntries := hcount (Nat.zero_le _)
    rw [List.length_eq_length_filter_add fun p => p.2.isFile] at hall
    rw [List.length_map, List.length_map]
    exact Nat.le_trans (Nat.le_add_left ..) hall
  · obtain ⟨p, hp, rfl⟩ := List.mem_map.mp hq
    obtain ⟨hmem, hfile⟩ := List.mem_filter.mp hp
    rcases leftover_cases hmem with ⟨-, hwhole, -⟩ | ⟨hno, -⟩
    · exact ⟨p.2, (tree_of_mem_leftovers items hmem).1, hfile, hwhole, hsize p hp⟩
    · cases hno.symm.trans hfile
  · have hpaths : r.1.writtenFiles = (filesLeft cfg tree items).map fun p => p.2.coarse.rel :=
      hwritten
    rw [hpaths, List.map_map, List.map_map, hdisk]
    refine List.map_congr_left fun p hp => ?_
    obtain ⟨hmem, hfile⟩ := List.mem_filter.mp hp
    exact statFile_of_mem_leftovers items hmem (isFile_iff.mp hfile)

end Within

/-- Whatever the archive, the kind and the limits with a positive cap for it, and whether the
extraction succeeds or not, what it leaves is within the limits. -/
theorem extraction_keeps_caps (limits : Limits) (kind : ResourceKind) (dst : List Name)
    (allowSymlinks complete : Bool) (tree : Tree Name) (items : List Packed)
    (hcap : 0 < limits.maxBytesForKind kind) :
    ∃ files links, WithinCaps (limits.config dst kind allowSymlinks) tree items
      (extractStream (limits.config dst kind allowSymlinks) complete (Volume.start tree) items)
      files links :=
  ⟨_, _, withinCaps complete hcap⟩

def fiveBytes : Limits := ⟨5, 5, 5, 10⟩

/-- A file of three bytes, then one that would pass a cap of five in its second chunk. -/
def twoFiles : List Packed :=
  [⟨⟨"a".toList, none, .reg 0 false⟩, ⟨[⟨3, none⟩], false, false, false⟩⟩,
    ⟨⟨"b".toList, none, .reg 0 false⟩, ⟨[⟨2, none⟩, ⟨1, none⟩], false, false, false⟩⟩]

theorem second_file_over_cap :
    (∃ files links, WithinCaps (fiveBytes.config symlinksAllowed.dst .skill false) staging twoFiles
      (extractStream (fiveBytes.config symlinksAllowed.dst .skill false) true (Volume.start staging)
        twoFiles)
      files links) ∧
    (extractStream (fiveBytes.config symlinksAllowed.dst .skill false) true (Volume.start staging)
      twoFiles).2 = false :=
  ⟨extraction_keeps_caps fiveBytes .skill _ false true staging _ (by decide), by decide +kernel⟩

end AchProofs.Cli.Extract
