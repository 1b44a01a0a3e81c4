import AchProofs.Cli.ExtractFits
import AchProofs.Contentkit.Verify

namespace AchProofs.Contentkit

open Foundation Foundation.Links Cli.Extract

def total (hs : List Header) : ℕ := (hs.map fun h => if h.typeflag = .reg then h.size else 0).sum

/-- What is left of the extractor's limits is enough for the entries. -/
structure Room (cfg : Config) (s : State) (hs : List Header) : Prop where
  entries : s.entriesSeen + hs.length ≤ cfg.maxEntries
  bytes : cfg.maxBytes = 0 ∨ s.bytesWritten + total hs ≤ cfg.maxBytes

variable {cfg : Config} {s : State} {h : Header} {hs : List Header}

theorem symlink_inside {dst : List Name} (hdst : dst ≠ []) (hrel : h.rel ≠ [])
    (hsafe : symlinkTargetSafe h = none) :
    h.linkname ≠ [] ∧ (parse h.linkname).absolute = false ∧
      startsWithDst dst (lexical (dst ++ h.rel).dropLast (parse h.linkname).parts) = true := by
  unfold symlinkTargetSafe at hsafe
  split_ifs at hsafe with hne habs hup
  refine ⟨hne, Bool.of_not_eq_true fun ha => habs (.inl ha), ?_⟩
  have hlex : dst <+: lexical (dst ++ h.rel).dropLast (parse h.linkname).parts := by
    rw [List.dropLast_append_of_ne_nil hrel, ← lexical_names, ← lexical_append, lexical_eq_normal,
      not_not.mp hup, Nat.sub_zero, List.take_length]
    exact List.prefix_append _ _
  simp [startsWithDst, hdst, hlex]

theorem extractEntry_of_safe (privileged : Bool) (hdst : cfg.dst ≠ []) (hsafe : h.Safe)
    (hcount : s.entriesSeen + 1 ≤ cfg.maxEntries) :
    extractEntry cfg s (h.entry privileged) =
      writeEntry cfg { s with entriesSeen := s.entriesSeen + 1 } h.rel
        (h.entry privileged).kind := by
  have hpax : (h.entry privileged).paxPath.bind (checkSafeRel cfg.dst) = none := by
    show h.paxPath.bind (checkSafeRel cfg.dst) = none
    cases hp : h.paxPath with
    | none => rfl
    | some p =>
      have := hsafe.pax
      rw [hp] at this
      exact checkSafeRel_of_safe hdst this
  unfold extractEntry
  dsimp only
  rw [if_neg (Nat.not_lt.mpr hcount), hpax]
  dsimp only
  have hname : checkSafeRel cfg.dst (h.entry privileged).name = none :=
    checkSafeRel_of_safe hdst hsafe.name
  rw [hname]
  rfl

theorem extractEntry_ok (privileged : Bool) (hdst : cfg.dst ≠ [])
    (hlinks : cfg.allowSymlinks = true) (hsafe : h.Safe)
    (hg : Ground cfg.dst s.disk.tree) (hroom : Room cfg s (h :: hs)) :
    ((extractEntry cfg s (h.entry privileged)).2 = none ↔ Fits cfg s (h.entry privileged)) ∧
      ((extractEntry cfg s (h.entry privileged)).2 = none →
        Ground cfg.dst (extractEntry cfg s (h.entry privileged)).1.disk.tree ∧
          Room cfg (extractEntry cfg s (h.entry privileged)).1 hs) := by
  have hcount := hroom.entries
  have hbytes := hroom.bytes
  rw [List.length_cons] at hcount
  rw [extractEntry_of_safe privileged hdst hsafe (by omega)]
  generalize hs' : ({ s with entriesSeen := s.entriesSeen + 1 } : State) = s'
  have hdisk : s'.disk = s.disk := by rw [← hs']
  have hseen : s'.entriesSeen = s.entriesSeen + 1 := by rw [← hs']
  have hwritten : s'.bytesWritten = s.bytesWritten := by rw [← hs']
  have hg' : Ground cfg.dst s'.disk.tree := hdisk ▸ hg
  have hrel : (normal (parse (h.entry privileged).name).parts).2 = h.rel := rfl
  have htotal : total (h :: hs) = (if h.typeflag = .reg then h.size else 0) + total hs := rfl
  rcases hsafe.typeflag with hflag | hflag | hflag | hflag | hflag
  · -- a regular file
    rw [if_pos hflag] at htotal
    have hkind : (h.entry privileged).kind = .reg h.size !(reopens privileged h.mode) := by
      simp [Header.entry, hflag]
    have hne := hsafe.rel (.inl hflag)
    have hsize : cfg.maxBytes = 0 ∨ s'.bytesWritten + h.size ≤ cfg.maxBytes := by
      rw [hwritten]
      omega
    have hok : (writeRegular cfg s' h.rel h.size !(reopens privileged h.mode)).2 = none ↔ _ :=
      writeRegular_ok_iff hg' hne hsize
    unfold Fits
    rw [hrel, hkind, ← hdisk]
    refine ⟨hok, fun hnone => ?_⟩
    obtain ⟨hground, hseen', hbytes'⟩ := writeRegular_next hg' hne hnone
    refine ⟨hground, ?_, ?_⟩
    · show (writeRegular _ _ _ _ _).1.entriesSeen + _ ≤ _
      rw [hseen', hseen]
      omega
    · show _ ∨ (writeRegular _ _ _ _ _).1.bytesWritten + _ ≤ _
      rw [hbytes', hwritten]
      omega
  · -- a directory
    rw [if_neg (by simp [hflag])] at htotal
    have hkind : (h.entry privileged).kind = .dir := by simp [Header.entry, hflag]
    have hspec := mkdirAll_spec hg' h.rel.reverse
    rw [List.reverse_reverse] at hspec
    unfold Fits
    rw [hrel, hkind, ← hdisk]
    unfold writeEntry
    dsimp only
    generalize mkdirAll cfg.dst s'.disk h.rel.reverse = made at hspec
    obtain ⟨d, ok⟩ := made
    rw [← hspec.ok_iff]
    cases ok with
    | false => simp
    | true =>
      refine ⟨by simp, fun _ => ⟨hspec.ground, ?_, ?_⟩⟩
      · show s'.entriesSeen + _ ≤ _
        rw [hseen]
        omega
      · show _ ∨ s'.bytesWritten + _ ≤ _
        rw [hwritten]
        omega
  · -- a symlink
    rw [if_neg (by simp [hflag])] at htotal
    have hkind : (h.entry privileged).kind = .symlink h.linkname := by simp [Header.entry, hflag]
    have hne := hsafe.rel (.inr hflag)
    obtain ⟨hlink, habs, hin⟩ := symlink_inside hdst hne (hsafe.target hflag)
    have hok := writeSymlink_ok_iff hg' hne hlink habs hin
    unfold Fits
    rw [hrel, hkind, ← hdisk]
    have hwrite :
        writeEntry cfg s' h.rel (.symlink h.linkname) = writeSymlink cfg s' h.rel h.linkname := by
      simp [writeEntry, hlinks]
    rw [hwrite]
    refine ⟨hok, fun hnone => ?_⟩
    obtain ⟨hground, hseen', hbytes'⟩ := writeSymlink_next hg' hne hnone
    refine ⟨hground, ?_, ?_⟩
    · rw [hseen', hseen]
      omega
    · rw [hbytes', hwritten]
      omega
  all_goals
    -- a PAX header leaves nothing behind
    rw [if_neg (by simp [hflag])] at htotal
    have hkind : (h.entry privileged).kind = .paxHeader := by simp [Header.entry, hflag]
    unfold Fits
    rw [hrel, hkind]
    refine ⟨iff_of_true rfl trivial, fun _ => ⟨hg', ?_, ?_⟩⟩
    · show s'.entriesSeen + _ ≤ _
      rw [hseen]
      omega
    · show _ ∨ s'.bytesWritten + _ ≤ _
      rw [hwritten]
      omega

theorem extract_ok_iff_fits (privileged : Bool) (hdst : cfg.dst ≠ [])
    (hlinks : cfg.allowSymlinks = true)
    (hsafe : ∀ h ∈ hs, h.Safe) (hg : Ground cfg.dst s.disk.tree) (hroom : Room cfg s hs) :
    (extract cfg s (hs.map (Header.entry privileged))).2 = none ↔
      Run.Along (next cfg) (Fits cfg) s (hs.map (Header.entry privileged)) := by
  induction hs generalizing s with
  | nil => exact iff_of_true rfl trivial
  | cons h hs ih =>
    obtain ⟨hiff, hnext⟩ := extractEntry_ok privileged hdst hlinks
      (hsafe h (List.mem_cons_self ..)) hg hroom
    rw [List.map_cons, extract, Run.Along, ← hiff]
    unfold next
    generalize extractEntry cfg s (h.entry privileged) = r at hnext
    obtain ⟨s', err⟩ := r
    cases err with
    | some e => simp
    | none =>
      obtain ⟨hg', hroom'⟩ := hnext rfl
      have hrest := ih (fun x hx => hsafe x (List.mem_cons_of_mem _ hx)) hg' hroom'
      dsimp only
      rw [hrest]
      constructor
      · intro h
        refine ⟨rfl, fun s₁ hs₁ => ?_⟩
        cases hs₁
        exact h
      · exact fun h => h.2 s' rfl

end AchProofs.Contentkit
