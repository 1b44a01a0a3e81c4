import AchProofs.Forwarder.Handlers

namespace AchProofs.Forwarder

open Foundation Foundation.Percent Foundation.Search
  Foundation.Text Foundation.Json

variable {β : Type}

def Family.kind : Family → Option Kind
  | .mcp => some .mcp
  | .a2a => some .a2a
  | _ => none

def Gateway.targetName (g : Gateway β) (kind : Kind) (u : URL) : Bytes :=
  (g.router.urlParam kind.pattern u).getD []

def Gateway.token (g : Gateway β) (fam : Family) (caller : Caller) (u : URL) : Option Bytes :=
  match fam.kind, caller.keyContext with
  | some kind, some kc =>
    if g.policy kind (g.targetName kind u) then g.sign kind kc (g.targetName kind u) else none
  | _, _ => none

def Gateway.dropsAuthz (g : Gateway β) (fam : Family) (caller : Caller) (u : URL) : Bool :=
  match fam.kind, caller.keyContext with
  | some kind, some kc => !g.policy kind (g.targetName kind u) && kc.keyType = .ek
  | _, _ => false

def listsModels (req : Request β) : Bool :=
  req.method = .get ∧ req.url.path ∈ [bytes "/v1/models", bytes "/v1/models/"] ∧ ¬ req.allModels

def dropsEncoding (fam : Family) (req : Request β) : Bool :=
  fam.kind = none ∧ (listsModels req ∨ fam = .modelInfo ∧ req.method = .get ∧ req.namesAlias)

/-- The headers that a handler hands to the proxy, but for two that describe the length. -/
def Gateway.SentFrom (g : Gateway β) (fam : Family) (caller : Caller) (req : Request β)
    (sent : Header) : Prop :=
  ∀ n, n ≠ contentLengthHeader → n ≠ transferEncodingHeader →
    sent n = if (n = acceptEncodingHeader ∧ dropsEncoding fam req) ∨
      (n = authzHeader ∧ g.dropsAuthz fam caller req.url) then [] else req.header n

def Gateway.proxied (g : Gateway β) (fam : Family) (caller : Caller) (req : Request β)
    (body : Option β) (sent : Header) : Request β :=
  { req with
    url := directPath g.prefixes req.url
    header := outgoing sent
      (direct g.uni.toLower g.openKey caller (g.token fam caller req.url) req.url.path sent)
    body := body }

theorem prepareModelList_eq (req : Request β) : prepareModelList req =
    if listsModels req then { req with header := req.header.del acceptEncodingHeader }
      else req := by
  simp [prepareModelList, listsModels]

variable {g : Gateway β} {h₂ : Header} {req up : Request β} {caller : Caller} {fam : Family}

theorem Gateway.scan_of_contentType {scanned : Request β} (h : g.scan req = some scanned)
    (hct : h₂ contentTypeHeader = req.header contentTypeHeader) :
    ∃ h', g.scan { req with header := h₂ } = some { req with header := h', body := scanned.body } ∧
      SameButLength h₂ h' := by
  obtain ⟨-, -, hstrip⟩ := scan_eq_some h
  obtain ⟨hscan, -, hsize⟩ := stripBodyTags_ok hstrip
  obtain ⟨h', hstrip'⟩ := (hscan.congr hct).strip hsize
  obtain ⟨-, hsame, -⟩ := stripBodyTags_ok hstrip'
  refine ⟨h', ?_, hsame⟩
  simp only [scan, hstrip']

/-- A check that reads the content type of the headers and nothing else of them. -/
def ReadsContentType (accepts : Request β → Bool) : Prop :=
  ∀ r r' : Request β, r.method = r'.method → r.url = r'.url → r.body = r'.body →
    r.header contentTypeHeader = r'.header contentTypeHeader → accepts r = accepts r'

theorem Gateway.admitGemini_reads (g : Gateway β) (model : Bytes) :
    ReadsContentType (g.admitGemini model) := by
  intro r r' hm hu hb hct
  have hget : r.header.get contentTypeHeader = r'.header.get contentTypeHeader := by
    rw [Header.get, hct, Header.get]
  rw [admitGemini, admitGemini, hm, hu, hb, hget]

theorem Gateway.tagged_of_contentType {accepts : Request β → Bool}
    (hread : ReadsContentType accepts) (hkind : fam.kind = none)
    (hdrop : dropsEncoding fam req = listsModels req)
    (h : g.taggedPassthroughChecked accepts caller req = some up)
    (hct : h₂ contentTypeHeader = req.header contentTypeHeader) :
    ∃ sent, g.SentFrom fam caller { req with header := h₂ } sent ∧
      g.taggedPassthroughChecked accepts caller { req with header := h₂ } =
        some (g.proxied fam caller { req with header := h₂ } up.body sent) := by
  obtain ⟨scanned, hscan, haccepts, hsends⟩ := taggedPassthroughChecked_cases h
  obtain ⟨h', hscan', hsame⟩ := scan_of_contentType hscan hct
  obtain ⟨hurl, hmethod, hstrip⟩ := scan_eq_some hscan
  have hct' : scanned.header contentTypeHeader = h' contentTypeHeader := by
    rw [(stripBodyTags_ok hstrip).2.1 _ (by decide) (by decide), hsame _ (by decide) (by decide),
      hct]
  have haccepts' : accepts { req with header := h', body := scanned.body } = true :=
    (hread scanned { req with header := h', body := scanned.body } hmethod hurl rfl
      hct').symm.trans haccepts
  have htoken : g.token fam caller req.url = none := by simp [token, hkind]
  have hauthz : g.dropsAuthz fam caller req.url = false := by simp [dropsAuthz, hkind]
  refine ⟨if listsModels req then h'.del acceptEncodingHeader else h', fun n hlen hte => ?_, ?_⟩
  · have hdrop' : dropsEncoding fam { req with header := h₂ } = listsModels req := hdrop
    dsimp only
    rw [hdrop', hauthz]
    by_cases hl : listsModels req = true
    · by_cases hn : n = acceptEncodingHeader
      · simp [hl, hn]
      · simp [hl, hn, Header.del_ne, hsame n hlen hte]
    · simp [hl, hsame n hlen hte]
  · rw [taggedPassthroughChecked, hscan', Option.bind_some, if_pos haccepts', prepareModelList_eq,
      hsends.body_eq]
    have hl' : listsModels { req with header := h', body := scanned.body } = listsModels req := rfl
    rw [hl']
    split
    · simp only [proxy, proxied, htoken]
    · simp only [proxy, proxied, htoken]

theorem prepareModelInfo_eq (req : Request β) : prepareModelInfo req =
    { req with header := if req.method = .get ∧ req.namesAlias then
        req.header.del acceptEncodingHeader else req.header } := by
  unfold prepareModelInfo
  split <;> rfl

theorem Gateway.modelInfo_of_contentType (h : g.handlerModelInfo caller req = some up)
    (hct : h₂ contentTypeHeader = req.header contentTypeHeader) :
    ∃ sent, g.SentFrom .modelInfo caller { req with header := h₂ } sent ∧
      g.handlerModelInfo caller { req with header := h₂ } =
        some (g.proxied .modelInfo caller { req with header := h₂ } up.body sent) := by
  rw [handlerModelInfo, prepareModelInfo_eq] at h ⊢
  have hread : ReadsContentType (fun _ : Request β => true) := fun _ _ _ _ _ _ => rfl
  have hct' : (if req.method = .get ∧ req.namesAlias then h₂.del acceptEncodingHeader else h₂)
      contentTypeHeader = (if req.method = .get ∧ req.namesAlias then
        req.header.del acceptEncodingHeader else req.header) contentTypeHeader := by
    split
    · rw [Header.del_ne _ (by decide), Header.del_ne _ (by decide), hct]
    · exact hct
  have hdrop : ∀ r : Request β, dropsEncoding .v1 r = listsModels r := fun r => by
    simp [dropsEncoding, Family.kind]
  obtain ⟨sent, hsent, hup⟩ :=
    tagged_of_contentType hread (show Family.kind .v1 = none from rfl) (hdrop _) h hct'
  refine ⟨sent, fun n hlen hte => ?_, hup⟩
  rw [hsent n hlen hte]
  have hv1 : g.dropsAuthz .v1 caller req.url = false := rfl
  have hinfo : g.dropsAuthz .modelInfo caller req.url = false := rfl
  have hdrop' : dropsEncoding .modelInfo { req with header := h₂ } =
      (listsModels req || decide (req.method = .get ∧ req.namesAlias)) := by
    simp [dropsEncoding, Family.kind, listsModels]
  have hdrop'' : ∀ k, dropsEncoding .v1 { req with header := k } = listsModels req :=
    fun k => hdrop _
  dsimp only
  rw [hv1, hinfo, hdrop', hdrop'']
  by_cases hn : n = acceptEncodingHeader <;> by_cases hl : listsModels req <;>
    by_cases hal : req.method = .get ∧ req.namesAlias = true <;> simp [hn, hl, hal, Header.del_ne]

theorem handlerNamed_eq_some {prefixes : List Bytes} {kind : Kind} {check : Bytes → Bool} {u : URL}
    {r : Bytes × Bytes} (h : handlerNamed g.router prefixes kind check u = some r) :
    g.targetName kind u = r.1 := by
  obtain ⟨name, hname, h⟩ := Option.bind_eq_some_iff.mp h
  split at h
  · cases h
    rw [Gateway.targetName, hname, Option.getD_some]
  · cases h

theorem Gateway.named_of_contentType {kind : Kind} (hfam : fam.kind = some kind)
    (h : g.handlerNamed kind caller req = some up)
    (hct : h₂ contentTypeHeader = req.header contentTypeHeader) :
    ∃ sent, g.SentFrom fam caller { req with header := h₂ } sent ∧
      g.handlerNamed kind caller { req with header := h₂ } =
        some (g.proxied fam caller { req with header := h₂ } up.body sent) := by
  have hbody : ∃ scanned, (if kind = Kind.a2a then g.scan req else some req) = some scanned ∧
      scanned.url = req.url ∧ scanned.body = up.body := by
    obtain ⟨scanned, hscan, hsends⟩ := handlerNamed_cases h
    refine ⟨scanned, hscan, ?_, hsends.body_eq.symm⟩
    split at hscan
    · exact (scan_eq_some hscan).1
    · cases hscan
      rfl
  obtain ⟨scanned, hscan, hurl, hbody⟩ := hbody
  obtain ⟨h', hscan', hsame⟩ : ∃ h', (if kind = Kind.a2a then g.scan { req with header := h₂ }
      else some { req with header := h₂ }) = some { req with header := h', body := up.body } ∧
        SameButLength h₂ h' := by
    split at hscan
    · rename_i hkind
      rw [if_pos hkind, ← hbody]
      exact scan_of_contentType hscan hct
    · rename_i hkind
      rw [if_neg hkind, ← hbody]
      cases hscan
      exact ⟨h₂, rfl, fun n _ _ => rfl⟩
  have hdrop : ∀ r : Request β, dropsEncoding fam r = false := fun r => by
    simp [dropsEncoding, hfam]
  rw [handlerNamed, hscan, Option.bind_some] at h
  rw [handlerNamed, hscan', Option.bind_some]
  have hkeep : g.dropsAuthz fam caller req.url = false →
      g.SentFrom fam caller { req with header := h₂ } h' := by
    intro hno n hlen hte
    rw [hdrop]
    simp [hno, hsame n hlen hte]
  cases hkc : caller.keyContext with
  | none =>
    have htoken : g.token fam caller req.url = none := by simp [token, hkc]
    exact ⟨h', hkeep (by simp [dropsAuthz, hkc]), by simp [proxy, proxied, htoken]⟩
  | some kc =>
    simp only [hkc] at h ⊢
    rw [hurl] at h
    obtain ⟨r, hr, h⟩ := Option.bind_eq_some_iff.mp h
    have hname := handlerNamed_eq_some hr
    rw [hr, Option.bind_some]
    by_cases hpolicy : g.policy kind r.1 = true
    · rw [if_pos hpolicy] at h ⊢
      obtain ⟨token, htoken, -⟩ := Option.map_eq_some_iff.mp h
      have htoken' : g.token fam caller req.url = some token := by
        simp [Gateway.token, hfam, hkc, hname, hpolicy, htoken]
      refine ⟨h', hkeep (by simp [dropsAuthz, hfam, hkc, hname, hpolicy]), ?_⟩
      simp [htoken, proxy, proxied, htoken']
    · rw [if_neg hpolicy]
      have htoken : g.token fam caller req.url = none := by
        simp [Gateway.token, hfam, hkc, hname, hpolicy]
      by_cases hek : kc.keyType = .ek
      · have hdrops : g.dropsAuthz fam caller req.url = true := by
          simp [dropsAuthz, hfam, hkc, hname, hpolicy, hek]
        rw [if_pos hek]
        refine ⟨h'.del authzHeader, fun n hlen hte => ?_, by simp [proxy, proxied, htoken]⟩
        rw [hdrop]
        by_cases hn : n = authzHeader
        · simp [hn, hdrops]
        · simp [hn, Header.del_ne, hsame n hlen hte]
      · rw [if_neg hek]
        refine ⟨h', hkeep ?_, by simp [proxy, proxied, htoken]⟩
        simp [dropsAuthz, hfam, hkc, hek]

theorem Gateway.forward_of_contentType (h : g.forward fam caller req = some up)
    (hct : h₂ contentTypeHeader = req.header contentTypeHeader) :
    ∃ sent, g.SentFrom fam caller { req with header := h₂ } sent ∧
      g.forward fam caller { req with header := h₂ } =
        some (g.proxied fam caller { req with header := h₂ } up.body sent) := by
  have hread : ReadsContentType (fun _ : Request β => true) := fun _ _ _ _ _ _ => rfl
  have hdrop : ∀ fam', fam'.kind = none → fam' ≠ Family.modelInfo →
      dropsEncoding fam' req = listsModels req := by
    intro fam' hkind hne
    simp [dropsEncoding, hkind, hne]
  cases fam with
  | v1 => exact tagged_of_contentType hread rfl (hdrop .v1 rfl (by decide)) h hct
  | gemini =>
    obtain ⟨model, hmodel, h⟩ := Option.bind_eq_some_iff.mp h
    obtain ⟨sent, hsent, hup⟩ := tagged_of_contentType (g.admitGemini_reads model) rfl
      (hdrop .gemini rfl (by decide)) h hct
    refine ⟨sent, hsent, ?_⟩
    change Option.bind (geminiPathModel req.method req.url g.prefixes) _ = _
    rw [hmodel]
    exact hup
  | modelInfo => exact modelInfo_of_contentType h hct
  | mcp => exact named_of_contentType rfl h hct
  | a2a => exact named_of_contentType rfl h hct

end AchProofs.Forwarder
