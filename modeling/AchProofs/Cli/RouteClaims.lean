import AchProofs.Cli.Route

namespace AchProofs.Cli.Route

open Cli.Extract Gitfetch Hydrate

/-- Where a write comes from: a skill that the user alone invokes, a conversion, or the file
itself. -/
inductive Origin
  | extra
  | converted
  | verbatim
  deriving DecidableEq

variable {L : List (Origin × FileWrite)} {w w' : Walked} {fw : FileWrite} {o : Origin} {d : Text}
  {i : ℕ}

/-- What becomes of a write: it is there, or gives way to one that stands in its place. -/
structure Stands (w : Walked) (o : Origin) (fw : FileWrite) : Prop where
  merged : fw.merge ≠ .replace → fw ∈ w.fws
  claimed : fw.merge = .replace → (w.claimed fw.path).isSome
  converted : fw.merge = .replace → o = .converted → fw ∈ w.fws ∨ w.converted fw.path = false
  verbatim : fw.merge = .replace → o = .verbatim → fw ∈ w.fws ∧ w.converted fw.path = false

theorem Stands.mono (h : Stands w o fw) (hsub : fw ∈ w.fws → fw ∈ w'.fws)
    (hc : fw.merge = .replace → (w.claimed fw.path).isSome → (w'.claimed fw.path).isSome)
    (hv : fw.merge = .replace → w'.converted fw.path = w.converted fw.path) : Stands w' o fw where
  merged hm := hsub (h.merged hm)
  claimed hm := hc hm (h.claimed hm)
  converted hm ho := by
    rw [hv hm]
    exact (h.converted hm ho).imp_left hsub
  verbatim hm ho := by
    rw [hv hm]
    exact (h.verbatim hm ho).imp_left hsub

def HasNative (L : List (Origin × FileWrite)) (d : Text) : Prop :=
  ∃ fw, (Origin.verbatim, fw) ∈ L ∧ fw.merge = .replace ∧ fw.path = d

/-- What the walk knows after the writes that it was offered. -/
structure Ledger (L : List (Origin × FileWrite)) (w : Walked) : Prop where
  claimed_iff : ∀ d i, w.claimed d = some i ↔
    ∃ fw, w.fws[i]? = some fw ∧ fw.merge = .replace ∧ fw.path = d
  offered : ∀ fw ∈ w.fws, ∃ o, (o, fw) ∈ L
  stands : ∀ o fw, (o, fw) ∈ L → Stands w o fw
  native : ∀ d, (w.claimed d).isSome → w.converted d = false → HasNative L d

theorem ledger_start : Ledger [] Walked.start where
  claimed_iff d i := by simp [Walked.start]
  offered fw h := (nomatch h)
  stands o fw h := (nomatch h)
  native d h := (nomatch h)

theorem mem_concat_iff {p : Origin} {g : FileWrite} :
    (p, g) ∈ L ++ [(o, fw)] ↔ (p, g) ∈ L ∨ p = o ∧ g = fw := by
  rw [List.mem_append, List.mem_singleton, Prod.mk.injEq]

theorem Ledger.extend (h : Ledger L w)
    (hi : ∀ d i, w'.claimed d = some i ↔ ∃ fw, w'.fws[i]? = some fw ∧ fw.merge = .replace ∧
      fw.path = d)
    (hof : ∀ g ∈ w'.fws, g ∈ w.fws ∨ g = fw) (hold : ∀ p g, (p, g) ∈ L → Stands w' p g)
    (hnew : Stands w' o fw)
    (hn : ∀ d, (w'.claimed d).isSome → w'.converted d = false →
      (w.claimed d).isSome ∧ w.converted d = false ∨ o = .verbatim ∧ fw.merge = .replace ∧
        fw.path = d) :
    Ledger (L ++ [(o, fw)]) w' := by
  refine ⟨hi, fun g hg => ?_, fun p g hg => ?_, fun d hd hv => ?_⟩
  · obtain hg | rfl := hof g hg
    · obtain ⟨p, hp⟩ := h.offered g hg
      exact ⟨p, mem_concat_iff.mpr (.inl hp)⟩
    · exact ⟨o, mem_concat_iff.mpr (.inr ⟨rfl, rfl⟩)⟩
  · obtain hg | ⟨rfl, rfl⟩ := mem_concat_iff.mp hg
    · exact hold p g hg
    · exact hnew
  · obtain ⟨hd, hv⟩ | ⟨ho, hm, hp⟩ := hn d hd hv
    · obtain ⟨g, hg, hr⟩ := h.native d hd hv
      exact ⟨g, mem_concat_iff.mpr (.inl hg), hr⟩
    · exact ⟨fw, mem_concat_iff.mpr (.inr ⟨ho.symm, rfl⟩), hm, hp⟩

theorem mem_concat_self : fw ∈ w.fws ++ [fw] := List.mem_append_right _ (List.mem_singleton_self _)

theorem mem_or_eq_of_mem_concat (g : FileWrite) (hg : g ∈ w.fws ++ [fw]) : g ∈ w.fws ∨ g = fw :=
  (List.mem_append.mp hg).imp_right List.mem_singleton.mp

theorem Ledger.merge (h : Ledger L w) (hm : fw.merge ≠ .replace) :
    Ledger (L ++ [(o, fw)]) { w with fws := w.fws ++ [fw] } := by
  refine h.extend (fun d i => ?_) mem_or_eq_of_mem_concat
    (fun p g hg => (h.stands p g hg).mono (List.mem_append_left _) (fun _ hs => hs) (fun _ => rfl))
    ⟨fun _ => mem_concat_self, fun hr => absurd hr hm, fun hr => absurd hr hm,
      fun hr => absurd hr hm⟩
    (fun d hd hv => .inl ⟨hd, hv⟩)
  rw [h.claimed_iff]
  constructor
  · rintro ⟨g, hg, hr⟩
    exact ⟨g, by rw [List.getElem?_append_left (List.getElem?_eq_some_iff.mp hg).1, hg], hr⟩
  · rintro ⟨g, hg, hr, hp⟩
    rcases Nat.lt_or_ge i w.fws.length with hi | hi
    · rw [List.getElem?_append_left hi] at hg
      exact ⟨g, hg, hr, hp⟩
    · rw [List.getElem?_append_right hi] at hg
      have : g = fw := List.mem_singleton.mp (List.mem_of_getElem? hg)
      exact absurd (this ▸ hr) hm

theorem Ledger.take (h : Ledger L w) (hm : fw.merge = .replace) (hfree : w.claimed fw.path = none) :
    Ledger (L ++ [(o, fw)])
      { w with
        fws := w.fws ++ [fw]
        claimed := Function.update w.claimed fw.path (some w.fws.length)
        converted := Function.update w.converted fw.path (o ≠ .verbatim) } := by
  -- what was offered before has another place
  have hne : ∀ p g, (p, g) ∈ L → g.merge = .replace → g.path ≠ fw.path := by
    intro p g hg hgm hp
    have := (h.stands p g hg).claimed hgm
    rw [hp, hfree] at this
    exact (nomatch this)
  refine h.extend (fun d i => ?_) mem_or_eq_of_mem_concat (fun p g hg => ?_)
    ⟨fun _ => mem_concat_self, fun _ => by simp, fun _ _ => .inl mem_concat_self,
      fun _ ho => ⟨mem_concat_self, by simp [ho]⟩⟩ (fun d hd hv => ?_)
  · dsimp only
    rcases Nat.lt_trichotomy i w.fws.length with hi | rfl | hi
    · rw [List.getElem?_append_left hi]
      by_cases hd : d = fw.path
      · rw [hd, Function.update_self, ← h.claimed_iff, hfree]
        simp [Nat.ne_of_gt hi]
      · rw [Function.update_of_ne hd, h.claimed_iff]
    · rw [List.getElem?_concat_length]
      by_cases hd : d = fw.path
      · simp [hd, hm]
      · rw [Function.update_of_ne hd, h.claimed_iff, List.getElem?_eq_none le_rfl]
        simp [Ne.symm hd]
    · rw [List.getElem?_eq_none (by simp; omega)]
      by_cases hd : d = fw.path
      · simp [hd, Nat.ne_of_lt hi]
      · rw [Function.update_of_ne hd, h.claimed_iff, List.getElem?_eq_none (Nat.le_of_lt hi)]
  · refine (h.stands p g hg).mono (List.mem_append_left _) (fun hr hs => ?_) (fun hr => ?_)
    · dsimp only
      rwa [Function.update_of_ne (hne p g hg hr)]
    · exact Function.update_of_ne (hne p g hg hr) ..
  · dsimp only at hd hv
    by_cases hp : d = fw.path
    · rw [hp, Function.update_self] at hv
      exact .inr ⟨by simpa using hv, hm, hp.symm⟩
    · rw [Function.update_of_ne hp] at hd hv
      exact .inl ⟨hd, hv⟩

/-- A file itself puts its write in the place of one that was converted. -/
theorem Ledger.oust (h : Ledger L w) (hm : fw.merge = .replace) (hi : w.claimed fw.path = some i)
    (hc : w.converted fw.path = true) :
    Ledger (L ++ [(.verbatim, fw)])
      { w with fws := w.fws.set i fw, converted := Function.update w.converted fw.path false } := by
  obtain ⟨old, hold, holdm, holdp⟩ := (h.claimed_iff _ _).mp hi
  have hlen : i < w.fws.length := (List.getElem?_eq_some_iff.mp hold).1
  have hnew : fw ∈ w.fws.set i fw := List.mem_set hlen fw
  -- all that goes is the write at the same place
  have hstays : ∀ g ∈ w.fws, g.merge ≠ .replace ∨ g.path ≠ fw.path → g ∈ w.fws.set i fw := by
    intro g hg hgo
    obtain ⟨j, hj⟩ := List.mem_iff_getElem?.mp hg
    have hij : i ≠ j := by
      rintro rfl
      rw [hold, Option.some.injEq] at hj
      subst hj
      simp [holdm, holdp] at hgo
    exact List.mem_iff_getElem?.mpr ⟨j, by rw [List.getElem?_set_ne hij, hj]⟩
  refine h.extend (fun d j => ?_) (fun g hg => List.mem_or_eq_of_mem_set hg) (fun p g hg => ?_)
    ⟨fun hr => absurd hm hr, fun _ => by simp [hi], fun _ => nofun,
      fun _ _ => ⟨hnew, Function.update_self ..⟩⟩ (fun d hd hv => ?_)
  · dsimp only
    rw [h.claimed_iff]
    by_cases hij : i = j
    · rw [← hij, hold, List.getElem?_set_self hlen]
      simp [holdm, holdp, hm]
    · rw [List.getElem?_set_ne hij]
  · have hg := h.stands p g hg
    by_cases hp : g.merge = .replace ∧ g.path = fw.path
    · refine ⟨fun hr => absurd hp.1 hr, hg.claimed, fun _ _ => .inr ?_, fun hr hv => ?_⟩
      · rw [hp.2]
        exact Function.update_self ..
      · rw [← hp.2, (hg.verbatim hr hv).2] at hc
        exact (nomatch hc)
    · refine hg.mono (fun hmem => hstays g hmem (not_and_or.mp hp)) (fun _ hs => hs) (fun hr => ?_)
      exact Function.update_of_ne (fun he => hp ⟨hr, he⟩) ..
  · dsimp only at hd hv
    by_cases hp : d = fw.path
    · exact .inr ⟨rfl, hm, hp.symm⟩
    · rw [Function.update_of_ne hp] at hv
      exact .inl ⟨hd, hv⟩

/-- An extra write, or a converted one, gives way to what stands in its place. -/
theorem Ledger.yield (h : Ledger L w) (hm : fw.merge = .replace) (hc : (w.claimed fw.path).isSome)
    (ho : o = .extra ∨ o = .converted ∧ w.converted fw.path = false) :
    Ledger (L ++ [(o, fw)]) w := by
  refine h.extend h.claimed_iff (fun _ => .inl) h.stands
    ⟨fun hr => absurd hm hr, fun _ => hc, fun _ he => .inr ?_, fun _ he => ?_⟩
      (fun d hd hv => .inl ⟨hd, hv⟩)
  · simpa [he] using ho
  · simp [he] at ho

theorem Ledger.appendExtra (h : Ledger L w) (hm : fw.merge = .replace) :
    Ledger (L ++ [(.extra, fw)]) (appendExtra w (some fw)) := by
  rw [Route.appendExtra]
  split
  · exact h.yield hm ‹_› (.inl rfl)
  · rename_i hfree
    exact h.take hm (Option.not_isSome_iff_eq_none.mp hfree)

def origin (isConverted : Bool) : Origin := if isConverted then .converted else .verbatim

theorem Ledger.claim {rel : Text} {isConverted : Bool} (h : Ledger L w)
    (hw : claim w rel isConverted fw = .ok w') : Ledger (L ++ [(origin isConverted, fw)]) w' := by
  rw [Route.claim] at hw
  by_cases hm : fw.merge ≠ .replace
  · rw [if_pos hm] at hw
    exact Except.ok.inj hw ▸ h.merge hm
  rw [if_neg hm] at hw
  rw [not_not] at hm
  cases hc : w.claimed fw.path with
  | none =>
    rw [hc] at hw
    have := h.take (o := origin isConverted) hm hc
    cases isConverted <;> exact Except.ok.inj hw ▸ this
  | some i =>
    rw [hc] at hw
    cases hv : w.converted fw.path <;> cases isConverted <;> simp [hv] at hw
    · -- the file itself stands there already
      exact hw ▸ h.yield hm (by rw [hc]; rfl) (.inr ⟨rfl, hv⟩)
    · exact hw ▸ h.oust hm hc hv

end AchProofs.Cli.Route
