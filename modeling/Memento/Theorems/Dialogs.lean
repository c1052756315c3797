import Memento.Theorems.Transactions

/-! Dialog ids. The id that `on_initial_request` gives out splits into the timestamp, the unique id and the
    IMPU it was built from, so that the END of a call is written under the key of its BEGIN. A call that is
    recorded has given out its id, unless its request was an originating one that names no caller. -/

namespace Memento
open Text Handler

/-! ### Splitting -/

theorem notMem_startTime (env : Env) (rawtime : ℤ) :
    (95 : UInt8) ∉ createFormattedTimestamp (env.localtime rawtime) timestampPattern :=
  notMem_createFormattedTimestamp (by decide) (by decide) (by decide)

theorem notMem_natText (n : ℕ) : (95 : UInt8) ∉ natText n := fun h => absurd (isDigit_natText h) (by decide)

theorem cut_formatDialogId {timestamp uniqueId : Bytes} (ht : 95 ∉ timestamp) (hu : 95 ∉ uniqueId) (encodedImpu : Bytes) :
    cut 95 2 (formatDialogId timestamp uniqueId encodedImpu) = [timestamp, uniqueId, encodedImpu] := by
  rw [formatDialogId, cut_succ_append ht, cut_succ_append hu, cut_zero]

theorem splitString_formatDialogId {timestamp uniqueId encodedImpu : Bytes} (ht : 95 ∉ timestamp) (hu : 95 ∉ uniqueId)
    (ht0 : timestamp ≠ []) (hu0 : uniqueId ≠ []) (hi0 : encodedImpu ≠ []) :
    splitString (formatDialogId timestamp uniqueId encodedImpu) 95 3 = [timestamp, uniqueId, encodedImpu] := by
  rw [splitString, cut_formatDialogId ht hu, List.filter_eq_self]
  simp [ht0, hu0, hi0]

/-! ### What names a call -/

/-- The IMPU, timestamp and id that a transaction records its call under. -/
def Tsx.callKey (t : Tsx) : Bytes × Bytes × Bytes := (t.impu, t.startTimeCassandra, t.uniqueId)
def CallListRequest.callKey (clr : CallListRequest) : Bytes × Bytes × Bytes := (clr.impu, clr.timestamp, clr.id)

section Key
variable {env : Env} {rawtime : ℤ} {unique : ℕ} {req : Request} {t t' : Tsx}

theorem Dialog.notMem_startTime (h : Dialog env rawtime unique req t t') : (95 : UInt8) ∉ t'.startTimeCassandra := by
  rw [h.startTimeCassandra]
  exact Memento.notMem_startTime env rawtime

theorem Dialog.notMem_uniqueId (h : Dialog env rawtime unique req t t') : (95 : UInt8) ∉ t'.uniqueId := by
  rw [h.uniqueId]
  exact notMem_natText unique

theorem Dialog.startTime_ne_nil (h : Dialog env rawtime unique req t t') : t'.startTimeCassandra ≠ [] := by
  rw [h.startTimeCassandra]
  exact createFormattedTimestamp_ne_nil _

theorem Dialog.uniqueId_ne_nil (h : Dialog env rawtime unique req t t') : t'.uniqueId ≠ [] := by
  rw [h.uniqueId]
  exact natText_ne_nil unique

theorem Dialog.splitString (h : Dialog env rawtime unique req t t') (hi : t'.impu ≠ []) :
    splitString (t'.dialogId env) 95 3 = [t'.startTimeCassandra, t'.uniqueId, env.base64.encode t'.impu] :=
  splitString_formatDialogId h.notMem_startTime h.notMem_uniqueId h.startTime_ne_nil h.uniqueId_ne_nil
    (env.base64.encode_ne_nil hi)

/-- A dialog id determines what it was built from. -/
theorem Dialog.callKey_eq (h : Dialog env rawtime unique req t t') {rawtime' : ℤ} {unique' : ℕ} {req' : Request} {u u' : Tsx}
    (h' : Dialog env rawtime' unique' req' u u') (hd : u'.dialogId env = t'.dialogId env) : u'.callKey = t'.callKey := by
  have hcut : cut 95 2 (u'.dialogId env) = cut 95 2 (t'.dialogId env) := by rw [hd]
  rw [Tsx.dialogId, Tsx.dialogId, cut_formatDialogId h.notMem_startTime h.notMem_uniqueId,
    cut_formatDialogId h'.notMem_startTime h'.notMem_uniqueId] at hcut
  simp only [List.cons.injEq, and_true] at hcut
  obtain ⟨ht, hu, hi⟩ := hcut
  have himpu : u'.impu = t'.impu := by
    rw [← env.base64.decode_encode u'.impu, hi, env.base64.decode_encode]
  rw [Tsx.callKey, Tsx.callKey, ht, hu, himpu]

end Key

/-! ### Transactions that begin with a request -/

section Transaction
variable {env : Env} {e : InitialEvent}

theorem beginTsx_dialog (env : Env) (h : InitialFits Tsx.new e.req) (hu : ¬e.req.Unasserted Tsx.new) :
    ∃ t, beginTsx (e.handle env) = (.ok (), ⟨t, [.addToDialog (t.dialogId env), .sendRequest e.req]⟩) ∧
      Dialog env e.rawtime e.unique e.req Tsx.new t :=
  onInitialRequest_dialog env e.rawtime e.unique e.req ⟨Tsx.new, []⟩ h hu

theorem beginTsx_unasserted (env : Env) (h : InitialFits Tsx.new e.req) (hu : e.req.Unasserted Tsx.new) :
    beginTsx (e.handle env) = (.ok (), ⟨Tsx.new.unasserted env e.rawtime e.req, [.sendRequest e.req]⟩) :=
  onInitialRequest_unasserted env e.rawtime e.unique e.req ⟨Tsx.new, []⟩ h hu

theorem beginTsx_of_addToDialog {d : Bytes} (hd : .addToDialog d ∈ (beginTsx (e.handle env)).2.calls) :
    ∃ t, beginTsx (e.handle env) = (.ok (), ⟨t, [.addToDialog d, .sendRequest e.req]⟩) ∧ d = t.dialogId env ∧
      Dialog env e.rawtime e.unique e.req Tsx.new t := by
  by_cases h : InitialFits Tsx.new e.req
  · by_cases hu : e.req.Unasserted Tsx.new
    · rw [beginTsx_unasserted env h hu] at hd
      simp at hd
    · obtain ⟨t, hrun, dialog⟩ := beginTsx_dialog env h hu
      rw [hrun] at hd ⊢
      obtain rfl : d = t.dialogId env := by simpa using hd
      exact ⟨t, rfl, rfl, dialog⟩
  · obtain ⟨t, hrun, -⟩ := onInitialRequest_unfit env e.rawtime e.unique e.req ⟨Tsx.new, []⟩ h
    rw [beginTsx, InitialEvent.handle, hrun] at hd
    simp at hd

/-- Every fragment that responses queue has the key of the transaction. -/
theorem callKey_of_mem_writes {t : Tsx} (hw : t.Waiting) {calls : List Call} {rsps : List ResponseEvent}
    {clr : CallListRequest} (hclr : clr ∈ writes (runResponses env rsps ⟨t, calls⟩).calls) :
    clr ∈ writes calls ∨ clr.callKey = t.callKey := by
  rw [runResponses_writes env hw, List.mem_append] at hclr
  rcases hclr with hclr | hclr
  · exact Or.inl hclr
  · split at hclr
    · cases hclr
    · split at hclr
      · obtain rfl := List.mem_singleton.mp hclr
        exact Or.inr rfl
      · cases hclr

/-- The fragments of one call have one key. Its BEGIN or REJECTED fragment is written under what the dialog id
    was built from, an END under what the dialog id splits into, and no other call gives out that id. -/
theorem fragments_share_key {d : Bytes} (hd : .addToDialog d ∈ (beginTsx (e.handle env)).2.calls)
    (hi : (beginTsx (e.handle env)).2.tsx.impu ≠ []) :
    (∀ rsps, ∀ clr ∈ writes (runTsx env (e.handle env) rsps).calls,
      clr.callKey = (beginTsx (e.handle env)).2.tsx.callKey) ∧
    (∀ bye : InDialogEvent, bye.req.method = .BYE → bye.dialogId = d → ∀ c, ∃ clr,
      writes (bye.handle env c).2.calls = writes c.calls ++ [clr] ∧ clr.type = .END ∧
      clr.callKey = (beginTsx (e.handle env)).2.tsx.callKey) ∧
    (∃ timestamp uniqueId encodedImpu, splitString d 95 3 = [timestamp, uniqueId, encodedImpu] ∧
      (env.base64.decode encodedImpu, timestamp, uniqueId) = (beginTsx (e.handle env)).2.tsx.callKey) ∧
    ∀ e' : InitialEvent, .addToDialog d ∈ (beginTsx (e'.handle env)).2.calls →
      (beginTsx (e'.handle env)).2.tsx.callKey = (beginTsx (e.handle env)).2.tsx.callKey := by
  obtain ⟨t, hrun, rfl, dialog⟩ := beginTsx_of_addToDialog hd
  rw [hrun] at hi ⊢
  have hsplit := dialog.splitString hi
  have hkey : (env.base64.decode (env.base64.encode t.impu), t.startTimeCassandra, t.uniqueId) = t.callKey := by
    rw [env.base64.decode_encode, Tsx.callKey]
  refine ⟨fun rsps clr hclr => ?_, fun bye hm hid c => ?_, ⟨_, _, _, hsplit, hkey⟩, fun e' hd' => ?_⟩
  · have hw : t.Waiting := ⟨dialog.includesInitialRequest, dialog.storedEntry⟩
    simp only [runTsx, hrun] at hclr
    rcases callKey_of_mem_writes hw hclr with h | h
    · simp [writes] at h
    · exact h
  · rw [← hid] at hsplit
    obtain ⟨t', hbye, -⟩ := onInDialogRequest_end env bye.currenttime bye.dialogId bye.req c hm hsplit
    rw [InDialogEvent.handle, hbye]
    refine ⟨endRequest env bye.currenttime t.startTimeCassandra t.uniqueId (env.base64.encode t.impu), ?_, rfl, hkey⟩
    rw [writes_append]
    rfl
  · obtain ⟨t', hrun', hd'', dialog'⟩ := beginTsx_of_addToDialog hd'
    rw [hrun']
    exact dialog.callKey_eq dialog' hd''.symm

/-- In the dialog of `sampleCall`. -/
def sampleBye : InDialogEvent :=
  ⟨0, ascii "20020530093010_1234_c2lwOmJvYkBob21l", { sampleRequest [] with method := .BYE }⟩

theorem sampleCall_addToDialog : .addToDialog (ascii "20020530093010_1234_c2lwOmJvYkBob21l") ∈
    (beginTsx (sampleCall.handle sampleEnv)).2.calls := by
  have hd : (beginTsx (sampleCall.handle sampleEnv)).2.tsx.dialogId sampleEnv =
      ascii "20020530093010_1234_c2lwOmJvYkBob21l" := by decide
  rw [← hd]
  exact .head _

theorem fragments_share_key_sample :
    (∃ clr, writes (runTsx sampleEnv (sampleCall.handle sampleEnv) [sampleResponse 200 []]).calls = [clr] ∧
      clr.type = .BEGIN ∧ clr.callKey = (ascii "sip:bob@home", ascii "20020530093010", ascii "1234")) ∧
    ∃ clr, writes (sampleBye.handle sampleEnv ⟨Tsx.new, []⟩).2.calls = [clr] ∧
      clr.type = .END ∧ clr.callKey = (ascii "sip:bob@home", ascii "20020530093010", ascii "1234") := by
  have hkey : (beginTsx (sampleCall.handle sampleEnv)).2.tsx.callKey =
      (ascii "sip:bob@home", ascii "20020530093010", ascii "1234") := by decide
  obtain ⟨hbegin, hend, -⟩ := fragments_share_key sampleCall_addToDialog (by decide)
  rw [hkey] at hbegin hend
  refine ⟨?_, hend sampleBye rfl rfl ⟨Tsx.new, []⟩⟩
  have htype : (writes (runTsx sampleEnv (sampleCall.handle sampleEnv) [sampleResponse 200 []]).calls).map
      CallListRequest.type = [.BEGIN] := by decide +kernel
  obtain ⟨clr, hclr, htype⟩ := List.map_eq_singleton_iff.mp htype
  exact ⟨clr, hclr, htype, hbegin _ clr (by rw [hclr]; exact .head _)⟩

end Transaction

/-! ### Recorded calls and their dialogs -/

/-- Before each fragment is queued, the dialog was given an id whose three parts, none of them empty, are those of
    the fragment. -/
def Tracked (env : Env) (calls : List Call) : Prop :=
  ∀ pre clr post, calls = pre ++ .writeCallListEntry clr :: post →
    ∃ d, .addToDialog d ∈ pre ∧ splitString d 95 3 = [clr.timestamp, clr.id, env.base64.encode clr.impu] ∧
      clr.timestamp ≠ [] ∧ clr.id ≠ [] ∧ clr.impu ≠ []

def Request.uris (req : Request) : List PjsipUri :=
  req.uri :: req.fromHdr.uri :: req.toHdr.uri ::
    req.hdrs.filterMap fun h =>
      match h with
      | .routing _ nameAddr _ => some nameAddr.uri
      | _ => none

def Request.UrisPrint (req : Request) : Prop :=
  ∀ uri ∈ req.uris, ∀ context, ∃ text, uri.print context uriBufferSize = some text ∧ text ≠ []

theorem findRouting_mem_uris {req : Request} {name : Bytes} {nameAddr : NameAddr} {otherParam : List Param}
    (h : findRouting req.hdrs name = some (nameAddr, otherParam)) : nameAddr.uri ∈ req.uris := by
  unfold findRouting at h
  split at h
  · rename_i n na op hfind
    cases h
    have hmem : Hdr.routing n nameAddr otherParam ∈ req.hdrs := List.mem_of_find?_eq_some hfind
    simp only [Request.uris, List.mem_cons, List.mem_filterMap]
    exact Or.inr (Or.inr (Or.inr ⟨_, hmem, rfl⟩))
  · cases h

section Uris
variable {req : Request} (h : req.UrisPrint)
include h

theorem Request.UrisPrint.fits {uri : PjsipUri} (hu : uri ∈ req.uris) (context : UriContext) : uri.Fits context := by
  obtain ⟨text, ht, -⟩ := h uri hu context
  rw [PjsipUri.Fits, ht]
  rfl

theorem Request.UrisPrint.initialFits (t : Tsx) : InitialFits t req where
  servedUser _ _ hf := h.fits (findRouting_mem_uris hf) _
  toHdr _ := h.fits (by simp [Request.uris]) _
  assertedId _ _ _ hf := h.fits (findRouting_mem_uris hf) _
  uri _ := h.fits (by simp [Request.uris]) _
  fromHdr _ := h.fits (by simp [Request.uris]) _

theorem Request.UrisPrint.impu_ne_nil {env : Env} {rawtime : ℤ} {unique : ℕ} {t t' : Tsx}
    (dialog : Dialog env rawtime unique req t t') : t'.impu ≠ [] := by
  obtain ⟨uri, hu, hp⟩ := dialog.impu
  have hmem : uri ∈ req.uris := by
    unfold ImpuUri at hu
    split at hu
    · obtain ⟨nameAddr, otherParam, hf, rfl⟩ := hu
      exact findRouting_mem_uris hf
    · subst hu
      simp [Request.uris]
  obtain ⟨text, ht, hne⟩ := h uri hmem .fromToHdr
  rw [hp] at ht
  cases ht
  exact hne

end Uris

theorem tracked_of_writes_nil {env : Env} {calls : List Call} (h : writes calls = []) : Tracked env calls := by
  rintro pre clr post rfl
  simp [writes] at h

/-- Fragments under the key of a transaction are tracked once it has given out its dialog id. -/
theorem tracked_cons {env : Env} {t : Tsx} {calls : List Call}
    (hs : splitString (t.dialogId env) 95 3 = [t.startTimeCassandra, t.uniqueId, env.base64.encode t.impu])
    (ht : t.startTimeCassandra ≠ []) (hu : t.uniqueId ≠ []) (hi : t.impu ≠ [])
    (hw : ∀ clr ∈ writes calls, clr.callKey = t.callKey) : Tracked env (.addToDialog (t.dialogId env) :: calls) := by
  intro pre clr post hcalls
  cases pre with
  | nil => simp at hcalls
  | cons x pre =>
    obtain ⟨rfl, rfl⟩ := List.cons.inj hcalls
    have hclr : clr ∈ writes (pre ++ .writeCallListEntry clr :: post) := mem_writes.mpr (by simp)
    have hkey := hw clr hclr
    simp only [CallListRequest.callKey, Tsx.callKey, Prod.mk.injEq] at hkey
    obtain ⟨hci, hct, hcu⟩ := hkey
    exact ⟨_, .head _, by rw [hct, hcu, hci, hs], hct ▸ ht, hcu ▸ hu, hci ▸ hi⟩

theorem not_tracked {env : Env} {calls : List Call} (hd : ∀ d, .addToDialog d ∉ calls) {clr : CallListRequest}
    (hclr : clr ∈ writes calls) : ¬Tracked env calls := by
  intro h
  obtain ⟨pre, post, rfl⟩ := List.append_of_mem (mem_writes.mp hclr)
  obtain ⟨d, hmem, -⟩ := h pre clr post rfl
  exact hd d (List.mem_append_left _ hmem)

section Transaction
variable {env : Env} {e : InitialEvent}

theorem tracked_of_asserted (h : e.req.UrisPrint) (hu : ¬e.req.Unasserted Tsx.new) (rsps : List ResponseEvent) :
    Tracked env (runTsx env (e.handle env) rsps).calls := by
  obtain ⟨t, hrun, dialog⟩ := beginTsx_dialog env (h.initialFits Tsx.new) hu
  have hw : t.Waiting := ⟨dialog.includesInitialRequest, dialog.storedEntry⟩
  have hi := h.impu_ne_nil dialog
  simp only [runTsx, hrun]
  obtain ⟨more, hcalls, -⟩ := runResponses_calls env hw [.addToDialog (t.dialogId env), .sendRequest e.req] rsps
  rw [hcalls, List.cons_append]
  refine tracked_cons (dialog.splitString hi) dialog.startTime_ne_nil dialog.uniqueId_ne_nil hi fun clr hclr => ?_
  have hmem : clr ∈ writes (runResponses env rsps ⟨t, [.addToDialog (t.dialogId env), .sendRequest e.req]⟩).calls := by
    rw [hcalls, List.cons_append]
    exact hclr
  rcases callKey_of_mem_writes hw hmem with h0 | hkey
  · simp [writes] at h0
  · exact hkey

/-- The responses to an unasserted request are recorded without a dialog. -/
theorem tracked_iff_of_unasserted (h : e.req.UrisPrint) (hu : e.req.Unasserted Tsx.new) (rsps : List ResponseEvent) :
    Tracked env (runTsx env (e.handle env) rsps).calls ↔
      ∀ r, rsps.find? (·.rsp.isFinal) = some r →
        ¬ResponseFits env (Tsx.new.unasserted env e.rawtime e.req) r.currenttime r.rsp := by
  have hrun := beginTsx_unasserted env (h.initialFits Tsx.new) hu
  have hw : (Tsx.new.unasserted env e.rawtime e.req).Waiting := ⟨rfl, rfl⟩
  simp only [runTsx, hrun]
  obtain ⟨more, hcalls, hd⟩ := runResponses_calls env hw [.sendRequest e.req] rsps
  have hwrites := runResponses_writes env hw [.sendRequest e.req] rsps
  constructor
  · intro ht r hr hfit
    rw [hr] at hwrites
    simp only [if_pos hfit] at hwrites
    exact not_tracked (by simpa [hcalls] using hd) (hwrites ▸ List.mem_append_right _ (.head _)) ht
  · intro hr
    refine tracked_of_writes_nil ?_
    rw [hwrites]
    cases hfind : rsps.find? (·.rsp.isFinal) with
    | none => rfl
    | some r => simp [hr r hfind, writes]

end Transaction

/-- The calls of a transaction are tracked exactly when its request names a caller or no final response is recorded. -/
theorem tracked_iff (env : Env) (e : InitialEvent) (h : e.req.UrisPrint) (rsps : List ResponseEvent) :
    Tracked env (runTsx env (e.handle env) rsps).calls ↔
      (e.req.Unasserted Tsx.new → ∀ r, rsps.find? (·.rsp.isFinal) = some r →
        ¬ResponseFits env (Tsx.new.unasserted env e.rawtime e.req) r.currenttime r.rsp) := by
  by_cases hu : e.req.Unasserted Tsx.new
  · rw [tracked_iff_of_unasserted h hu]
    exact ⟨fun hr _ => hr, fun hr => hr hu⟩
  · exact ⟨fun _ hu' => absurd hu' hu, fun _ => tracked_of_asserted h hu rsps⟩

/-- An originating INVITE without P-Asserted-Identity. -/
def unassertedCall : InitialEvent :=
  ⟨0, 1234, sampleRequest [.routing pServedUser ⟨[], .ofText (ascii "sip:alice@home")⟩ [⟨sescase, orig⟩]]⟩

theorem unassertedCall_urisPrint : unassertedCall.req.UrisPrint := by
  intro uri hu context
  simp only [Request.uris, unassertedCall, sampleRequest, List.filterMap_cons, List.filterMap_nil, List.mem_cons,
    List.not_mem_nil, or_false] at hu
  rcases hu with rfl | rfl | rfl | rfl <;> exact ⟨_, rfl, by decide⟩

theorem sampleCall_urisPrint : sampleCall.req.UrisPrint := by
  intro uri hu context
  simp only [Request.uris, sampleCall, sampleRequest, List.filterMap_nil, List.mem_cons, List.not_mem_nil, or_false] at hu
  rcases hu with rfl | rfl | rfl <;> exact ⟨_, rfl, by decide⟩

/-- A call that is answered is recorded in its dialog, and without a final response nothing is recorded. -/
theorem tracked_iff_sample :
    (writes (runTsx sampleEnv (sampleCall.handle sampleEnv) [sampleResponse 183 [], sampleResponse 200 []]).calls).map
      CallListRequest.callKey = [(ascii "sip:bob@home", ascii "20020530093010", ascii "1234")] ∧
    Tracked sampleEnv (runTsx sampleEnv (sampleCall.handle sampleEnv) [sampleResponse 183 [], sampleResponse 200 []]).calls ∧
    Tracked sampleEnv (runTsx sampleEnv (unassertedCall.handle sampleEnv) [sampleResponse 183 []]).calls := by
  refine ⟨by decide +kernel, ?_, ?_⟩
  · exact (tracked_iff sampleEnv sampleCall sampleCall_urisPrint _).mpr fun hu => absurd hu.1 (by decide)
  · refine (tracked_iff sampleEnv unassertedCall unassertedCall_urisPrint _).mpr fun _ r hr => ?_
    have hn : (sampleResponse 183 []).rsp.isFinal = false := by decide
    simp [List.find?, hn] at hr

theorem unassertedCall_not_tracked : unassertedCall.req.UrisPrint ∧
    (writes (runTsx sampleEnv (unassertedCall.handle sampleEnv) [sampleResponse 200 []]).calls).map
      CallListRequest.callKey = [([], ascii "20020530093010", [])] ∧
    ¬Tracked sampleEnv (runTsx sampleEnv (unassertedCall.handle sampleEnv) [sampleResponse 200 []]).calls := by
  have hfit : ResponseFits sampleEnv (Tsx.new.unasserted sampleEnv 0 unassertedCall.req) 0 (sampleResponse 200 []).rsp := by
    decide +kernel
  refine ⟨unassertedCall_urisPrint, by decide +kernel, fun h => ?_⟩
  exact (tracked_iff_of_unasserted unassertedCall_urisPrint ⟨rfl, rfl⟩ _).mp h _ rfl hfit

end Memento
