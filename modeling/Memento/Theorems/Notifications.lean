import Memento.HttpNotifier
import Memento.Theorems.Server

/-! What is posted of a run. Each successful write is posted once, to the server of the URL, and what is posted names the
    list that was written, whatever bytes its IMPU holds. -/

namespace Memento
open Text

/-! ### One notification -/

/-- What is posted reads back as the IMPU. -/
theorem readObject_notification (writer : Json.Writer) (impu : Bytes) :
    Json.readObject (notification writer impu) = some [(ascii "impu", cStr impu)] := by
  rw [notification, cStr_of_notMem (writer.zero_notMem_object _), writer.readObject_object]

section Url
variable {parseHttpUrl : Bytes → Option HttpUrl} {notifyUrl : Bytes} (writer : Json.Writer) (httpCode : HttpRequest → ℤ)

/-- A URL that does not parse, or has no server, is not posted to. -/
def HttpUrl.Usable (parseHttpUrl : Bytes → Option HttpUrl) (notifyUrl : Bytes) (url : HttpUrl) : Prop :=
  parseHttpUrl notifyUrl = some url ∧ url.server ≠ []

theorem sendNotify_usable {url : HttpUrl} (h : url.Usable parseHttpUrl notifyUrl) (impu : Bytes) :
    ((HttpNotifier.new parseHttpUrl notifyUrl).sendNotify writer httpCode impu).1 =
      some ⟨⟨url.server, url.scheme⟩, url.path, notification writer impu⟩ := by
  rw [HttpNotifier.new, h.1]
  simp only [ne_eq, h.2, not_false_eq_true, if_true]
  rfl

theorem sendNotify_unusable (h : ∀ url : HttpUrl, ¬url.Usable parseHttpUrl notifyUrl) (impu : Bytes) :
    (HttpNotifier.new parseHttpUrl notifyUrl).sendNotify writer httpCode impu = (none, true) := by
  rw [HttpNotifier.new]
  cases hurl : parseHttpUrl notifyUrl with
  | none => rfl
  | some url =>
    have hserver : ¬url.server ≠ [] := fun hne => h url ⟨hurl, hne⟩
    simp only [if_neg hserver]
    rfl

end Url

/-! ### Runs -/

section Pool
variable {W σ : Type}

/-- What was posted, the latest first. -/
def posts (notifier : HttpNotifier) (writer : Json.Writer) (httpCode : HttpRequest → ℤ) (trace : List (Event W)) :
    List HttpRequest :=
  (notifications trace).filterMap fun impu => (notifier.sendNotify writer httpCode impu).1

variable [DecidableEq W] [Fintype W] {config : PoolConfig} {outside : Outside σ} {s₀ s : Pool W σ}

section Counts
variable (h : Reachable config outside s₀ s) (hn : config.httpNotifier = true)
include h hn

theorem Reachable.count_notifications (impu : Bytes) : ((successes s.trace).map CallListRequest.impu).count impu =
    (notifications s.trace).count impu + s.total fun x => x.unnotified.toList.countP (·.impu = impu) := by
  rw [← h.notifications_balance hn impu, List.count, List.countP_map]
  exact List.countP_congr fun clr _ => by simp

/-- Nothing is notified that was not written. -/
theorem Reachable.notifications_subperm :
    (notifications s.trace).Subperm ((successes s.trace).map CallListRequest.impu) := by
  rw [List.subperm_ext_iff]
  intro impu _
  rw [h.count_notifications hn]
  exact Nat.le_add_right _ _

theorem Reachable.notifications_perm (drained : s.Drained) :
    (notifications s.trace).Perm ((successes s.trace).map CallListRequest.impu) := by
  rw [List.perm_iff_count]
  intro impu
  rw [h.count_notifications hn, drained.total rfl, Nat.add_zero]

end Counts

/-- With a usable URL each POST goes to its server, what is posted is no more than what was written, and when all work is
    done it is all that was written, list by list. Otherwise nothing is posted. -/
theorem notifications_posted {parseHttpUrl : Bytes → Option HttpUrl} {options : MementoSproutlet} {server : MementoAppServer}
    (hserver : server = .new parseHttpUrl options) (h : Reachable server.poolConfig outside s₀ s) (writer : Json.Writer)
    (httpCode : HttpRequest → ℤ) :
    (∀ url : HttpUrl, url.Usable parseHttpUrl options.mementoNotifyUrl →
      (∀ r ∈ posts server.httpNotifier writer httpCode s.trace,
        r.connection = ⟨url.server, url.scheme⟩ ∧ r.path = url.path) ∧
      ((posts server.httpNotifier writer httpCode s.trace).map fun r => Json.readObject r.body).Subperm
        ((successes s.trace).map fun clr => some [(ascii "impu", cStr clr.impu)]) ∧
      (s.Drained → ((posts server.httpNotifier writer httpCode s.trace).map fun r => Json.readObject r.body).Perm
        ((successes s.trace).map fun clr => some [(ascii "impu", cStr clr.impu)]))) ∧
    ((∀ url : HttpUrl, ¬url.Usable parseHttpUrl options.mementoNotifyUrl) →
      posts server.httpNotifier writer httpCode s.trace = []) := by
  subst hserver
  have hn : (MementoAppServer.new parseHttpUrl options).poolConfig.httpNotifier = true := rfl
  refine ⟨fun url husable => ?_, fun hunusable => ?_⟩
  · let request impu : HttpRequest := ⟨⟨url.server, url.scheme⟩, url.path, notification writer impu⟩
    have hposts : posts (MementoAppServer.new parseHttpUrl options).httpNotifier writer httpCode s.trace =
        (notifications s.trace).map request := by
      rw [posts, ← List.filterMap_eq_map]
      exact List.filterMap_congr fun impu _ => sendNotify_usable writer httpCode husable impu
    have hbodies : ((notifications s.trace).map request).map (fun r => Json.readObject r.body) =
        (notifications s.trace).map fun impu => some [(ascii "impu", cStr impu)] := by
      rw [List.map_map]
      exact List.map_congr_left fun impu _ => readObject_notification writer impu
    have hwritten : ((successes s.trace).map fun clr => some [(ascii "impu", cStr clr.impu)]) =
        ((successes s.trace).map CallListRequest.impu).map fun impu => some [(ascii "impu", cStr impu)] := by
      rw [List.map_map]
      rfl
    rw [hposts, hbodies, hwritten]
    refine ⟨fun r hr => ?_, ?_, fun drained => ?_⟩
    · obtain ⟨impu, -, rfl⟩ := List.mem_map.mp hr
      exact ⟨rfl, rfl⟩
    · obtain ⟨written, hperm, hsub⟩ := h.notifications_subperm hn
      exact ⟨_, hperm.map _, hsub.map _⟩
    · exact (h.notifications_perm hn drained).map _
  · rw [posts, List.filterMap_eq_nil_iff]
    exact fun impu _ => congrArg Prod.fst (sendNotify_unusable writer httpCode hunusable impu)

end Pool

def notifyingOptions : MementoSproutlet :=
  ⟨5055, ascii "memento", ascii "sip:memento.sprout;transport=TCP", 25, ascii "http://ems/notify", ascii "localhost", 604800, 0,
    1000000⟩

def notifyUrl : HttpUrl := ⟨ascii "http", ascii "ems", ascii "/notify"⟩

/-- One write, of an IMPU with a quote in it. -/
theorem notifications_posted_sample : ∃ s : Pool Unit Cells,
    (posts (MementoAppServer.new (fun _ => some notifyUrl) notifyingOptions).httpNotifier Json.Writer.standard (fun _ => 200)
      s.trace).map (fun r => Json.readObject r.body) = [some [(ascii "impu", ascii "sip:\"bob@home")]] := by
  let clr : CallListRequest := ⟨ascii "sip:\"bob@home", ascii "20020530093010", ascii "1234", .REJECTED, []⟩
  let server := MementoAppServer.new (fun _ => some notifyUrl) notifyingOptions
  have r0 : Reachable server.poolConfig (lastWriteStore (· < ·)) (.new fun _ => .empty : Pool Unit Cells) _ := .new _ _ _
  have r1 := r0.step (.submit clr)
  have r2 := r1.step (.take () rfl rfl)
  have r3 := r2.step (.stamp () 1 rfl Nat.zero_lt_one)
  have r4 := r3.step (.write () .OK _ rfl (Or.inl rfl))
  have r5 := r4.step (.count () rfl)
  have r6 := r5.step (.sample () 0 rfl trivial rfl)
  have r7 := r6.step (.notify () rfl)
  have r8 := r7.step (.complete () rfl)
  have husable : HttpUrl.Usable (fun _ => some notifyUrl) notifyingOptions.mementoNotifyUrl notifyUrl := ⟨rfl, by decide⟩
  have posted := (notifications_posted rfl r8 Json.Writer.standard (fun _ => 200)).1 _ husable
  exact ⟨_, (posted.2.2 ⟨rfl, fun _ => rfl⟩).eq_singleton⟩

end Memento
