import Xatmi.Switchboard.Exchange

/-!
# How commands are answered

What each handler writes to the client it is called for, and what it then reads from that client.
-/

namespace Xatmi
namespace Switchboard

variable {e : Event} {σ τ : State} {c : ClientId}

/-! ## Armed clients -/

theorem reading_arm (handler : Handler) {b : BufId} {contents : Bytes} {x : Client}
    (live : σ.client c = some x) (room : σ.buf b = some contents) :
    (σ.arm c handler b).Reading c handler contents.length [] :=
  ⟨_, b, contents, change_eq_some_iff.mpr ⟨x, live, rfl⟩, by simp, by simp, by simp, room, rfl, rfl⟩

theorem reading_nextCommand {x : Client} (live : σ.client c = some x) :
    (σ.nextCommand c).Reading c .command 1 [] := by
  have armed : ((σ.allocBuf [0]).arm c .command σ.next).Reading c .command [(0 : Byte)].length [] :=
    reading_arm .command live (if_pos rfl)
  exact armed

theorem reading_assign {a : AdvertId} {v : Advert} {t : TranId} {frame : Bytes} {x : Client}
    (live : σ.client v.client = some x) : (σ.assign a v t frame).Reading v.client .command 1 [] :=
  reading_nextCommand (change_eq_some_iff.mpr ⟨x, live, rfl⟩)

/-- Others go on reading what they read. -/
theorem State.Reading.assign {handler : Handler} {room : Nat} {got : Bytes} {a : AdvertId}
    {v : Advert} {t : TranId} {frame : Bytes} (reading : σ.Reading c handler room got)
    (other : v.client ≠ c) (fresh : ∀ b contents, σ.buf b = some contents → b < σ.next) :
    (σ.assign a v t frame).Reading c handler room got := by
  obtain ⟨x, b, contents, live, rest⟩ := reading
  have live' : (σ.assign a v t frame).client c = some x := by
    refine (congrFun (change_change _ _ _ _) c).trans (change_eq_some_iff.mpr ⟨x, live, ?_⟩)
    rw [if_neg other.symm]
  obtain ⟨reads, into, used, stored, length⟩ := rest
  exact ⟨x, b, contents, live', reads, into, used,
    put_eq_some_iff.mpr (.inr ⟨(fresh b contents stored).ne, stored⟩), length⟩

/-! ## Commands -/

theorem state_of_command {filled : Bytes} {handler : Handler} {len : Nat}
    (received : Received σ e c .command filled)
    (known : commands[(filled.getD 0 0).toNat]? = some (handler, len)) (long : len ≠ 0)
    (done : step σ e = .ok τ) :
    ∃ x b, σ.client c = some x ∧ τ = (((σ.begin c .command b filled).freeBuf b).allocBuf
      (resize filled len)).arm c handler σ.next := by
  obtain ⟨x, b, u, live, into, _, called⟩ := runHandler_of_step received done
  have room : (σ.begin c .command b filled).buf b = some filled := if_pos rfl
  obtain ⟨y, live', idle, ⟨_, rfl⟩ | ⟨short, _⟩⟩ := command_ok room known called
  · exact ⟨x, b, live, rfl⟩
  · exact absurd short long

theorem step_command {filled : Bytes} {handler : Handler} {len : Nat}
    (received : Received σ e c .command filled)
    (known : commands[(filled.getD 0 0).toNat]? = some (handler, len)) (long : len ≠ 0)
    (done : step σ e = .ok τ) : τ.Reading c handler len [] ∧ τ.sent = σ.sent := by
  obtain ⟨x, b, live, rfl⟩ := state_of_command received known long done
  have live' : (((σ.begin c .command b filled).freeBuf b).allocBuf (resize filled len)).client c =
      some { x with handler := none, input := none, used := 0 } :=
    change_eq_some_iff.mpr ⟨x, live, (if_pos rfl).symm⟩
  have armed := reading_arm handler live' (if_pos rfl)
  rw [length_resize] at armed
  exact ⟨armed, rfl⟩

/-- Putting advertisements on wait queues changes the queues and nothing else. -/
theorem forM_addToWaitq_frame {adverts : List AdvertId} {u : PUnit}
    (done : adverts.forM addToWaitq σ = .ok (u, τ)) :
    ∃ links service, τ = { σ with links, service } := by
  induction adverts generalizing σ with
  | nil =>
      obtain ⟨_, rfl⟩ := Program.pure_ok_iff.mp done
      exact ⟨τ.links, τ.service, rfl⟩
  | cons a adverts ih =>
      obtain ⟨_, μ, visited, rest⟩ := Program.bind_ok_iff.mp done
      obtain ⟨v, _, _, rfl⟩ := addToWaitq_ok_iff.mp visited
      obtain ⟨links, service, rfl⟩ := ih rest
      exact ⟨links, service, rfl⟩

/-- `TPTWORK`: the worker is given a transaction, or rests. -/
theorem step_work (inv : Inv ⟨{}, σ⟩) (asks : Commands σ e c TPTWORK) (done : step σ e = .ok τ) :
    (∃ a t v tr svc data, σ.advert a = some v ∧ v.client = c ∧ σ.tran t = some tr ∧
        σ.service tr.svc = some svc ∧ σ.buf tr.data = some data ∧ τ.Reading c .command 1 [] ∧
        τ.sent = (σ.write c (workFrame v tr svc.svcname data)).sent ∧
        ∀ a' k t', .dispatched a' k t' ∈ τ.log →
          (a' = a ∧ k = c ∧ t' = t) ∨ .dispatched a' k t' ∈ σ.log) ∨
      (∃ y, τ.client c = some y ∧ y.Idle) ∧ τ.sent = σ.sent ∧
        ∀ a k t, .dispatched a k t ∈ τ.log → .dispatched a k t ∈ σ.log := by
  obtain ⟨filled, received, work⟩ := asks
  obtain ⟨x, b, u, live, into, reads, called⟩ := runHandler_of_step received done
  have room : (σ.begin c .command b filled).buf b = some filled := if_pos rfl
  have known : commands[(filled.getD 0 0).toNat]? = some (.svrservice, 0) := by rw [work]; rfl
  obtain ⟨y, live', idle, ⟨impossible, _⟩ | ⟨_, _, _, served⟩⟩ := command_ok room known called
  · exact absurd rfl impossible
  obtain ⟨contents, z, _, live'', ⟨_, parked⟩ | ⟨a, t, v, w, tr, svc, data, _, mine,
    advert, _, _, _, worker, _, _, found, service, room', rfl⟩⟩ := svrservice_ok served
  · obtain ⟨links, service, rfl⟩ := forM_addToWaitq_frame parked
    refine .inr ⟨⟨y, live', idle⟩, rfl, ?_⟩
    simp [State.freeBuf, State.observe, State.allocBuf, State.begin, State.mapClient]
  · obtain ⟨z', before, rfl⟩ := change_eq_some_iff.mp live''
    have mine : a ∈ z'.adverts := by
      split at mine <;> exact mine
    obtain ⟨_, v', advert', owner, _⟩ := inv.registry.tree c z' a before mine
    obtain rfl := Option.some.inj (advert.symm.trans advert')
    subst owner
    have private_ : σ.Private b :=
      (inv.buffers.reading _ x b live ⟨into, .command, reads, rfl⟩).1
    have apart : tr.data ≠ b := private_.apart t tr found
    have stored : σ.buf tr.data = some data := by
      obtain ⟨_, room'⟩ := put_none_eq_some_iff.mp room'
      rcases put_eq_some_iff.mp room' with ⟨same, _⟩ | ⟨_, room'⟩
      · obtain ⟨old, room''⟩ := inv.buffers.data t tr found
        exact absurd (same ▸ inv.fresh.buf _ old room'') (Nat.lt_irrefl _)
      · obtain ⟨_, room'⟩ := put_none_eq_some_iff.mp room'
        rcases put_eq_some_iff.mp room' with ⟨same, _⟩ | ⟨_, room'⟩
        · exact absurd same apart
        · exact room'
    refine .inl ⟨a, t, v, tr, svc, data, advert, rfl, found, service, stored, reading_assign worker,
      rfl, ?_⟩
    intro a' k t' seen
    simpa [State.assign, State.nextCommand, State.arm, State.allocBuf, State.write, State.observe,
      State.mapTran, State.mapClient, State.dismiss, State.freeBuf, State.begin] using seen

/-! ## Requests -/

/-- The data of transaction `t` is complete, and nobody has been given it. -/
structure State.Stored (σ : State) (t : TranId) (tr : Transaction) (data : Bytes) : Prop where
  found : σ.tran t = some tr
  new : ¬σ.Dispatched t
  room : σ.buf tr.data = some data
  unread : ∀ k y, σ.client k = some y → y.input ≠ some tr.data

/-- Client `w` has been sent transaction `tr` for its advertisement `a`. -/
def Delivered (σ τ : State) (tr : Transaction) (data : Bytes) (a : AdvertId) (w : ClientId) :
    Prop :=
  ∃ v svc, σ.advert a = some v ∧ v.client = w ∧ σ.service tr.svc = some svc ∧
    τ.sent w = σ.sent w ++ workFrame v tr svc.svcname data

/-- Whoever has been given transaction `t` has been sent it, and nobody means that it is stored. -/
def Settles (σ τ : State) (t : TranId) (tr : Transaction) (data : Bytes) : Prop :=
  (∀ a w, .dispatched a w t ∈ τ.log → Delivered σ τ tr data a w) ∧
    (¬τ.Dispatched t → τ.Stored t tr data)

theorem sendToWorker_outcome {env : Env} {b : BufId} {u : PUnit} {x : Client} {t : TranId}
    {tr : Transaction} {data : Bytes} (live : σ.client c = some x)
    (last : x.requests.getLast? = some t) (stored : σ.Stored t tr data)
    (fresh : ∀ b contents, σ.buf b = some contents → b < σ.next)
    (done : sendToWorker env c b σ = .ok (u, τ)) :
    τ.Reading c .command 1 [] ∧ τ.sent c = σ.sent c ∧ (∃ tr', τ.tran t = some tr' ∧
      tr'.place = tr.place) ∧ (∀ a w, .dispatched a w t ∈ τ.log → w ≠ c) ∧
      Settles σ τ t tr data := by
  have old : tr.data < σ.next := fresh _ _ stored.room
  have room : (σ.nextCommand c).buf tr.data = some data :=
    put_eq_some_iff.mpr (.inr ⟨old.ne, stored.room⟩)
  have reading : (σ.nextCommand c).Reading c .command 1 [] := reading_nextCommand live
  have fresh' : ∀ b contents, (σ.nextCommand c).buf b = some contents →
      b < (σ.nextCommand c).next := by
    intro b contents room
    rcases put_eq_some_iff.mp room with ⟨rfl, _⟩ | ⟨_, room⟩
    · exact Nat.lt_succ_self _
    · exact (fresh b contents room).trans (Nat.lt_succ_self _)
  obtain ⟨_, tr', svc, found, service, outcome⟩ := sendToWorker_ok live last done
  obtain rfl := Option.some.inj (stored.found.symm.trans found)
  rcases outcome with ⟨a, v, w, contents, _, _, _, advert, worker, idle, _, room', rfl⟩ |
    ⟨_, _, rfl⟩
  · obtain rfl := Option.some.inj (room.symm.trans room')
    have other : v.client ≠ c := by
      intro same
      obtain ⟨y, _, _, live', reads, _⟩ := reading
      obtain rfl := Option.some.inj (live'.symm.trans (same ▸ worker))
      simp [idle.1] at reads
    have only : ∀ a' k,
        .dispatched a' k t ∈ (((σ.nextCommand c).dismiss (env.walk w.adverts)).assign a v t
          (workFrame v tr svc.svcname data)).log → a' = a ∧ k = v.client := by
      intro a' k seen
      rcases List.mem_cons.mp seen with same | seen
      · exact ⟨(Obs.dispatched.inj same).1, (Obs.dispatched.inj same).2.1⟩
      · exact absurd ⟨a', k, seen⟩ stored.new
    refine ⟨State.Reading.assign reading other fresh', if_neg other.symm,
      ⟨_, change_eq_some_iff.mpr ⟨tr, found, (if_pos rfl).symm⟩, rfl⟩, ?_, ?_, ?_⟩
    · intro a' k seen
      obtain ⟨_, rfl⟩ := only a' k seen
      exact other
    · intro a' k seen
      obtain ⟨rfl, rfl⟩ := only a' k seen
      exact ⟨v, svc, advert, rfl, service, if_pos rfl⟩
    · exact fun none_ => absurd ⟨a, v.client, List.mem_cons_self⟩ none_
  · refine ⟨reading, rfl, ⟨tr, found, rfl⟩, fun a w seen => absurd ⟨a, w, seen⟩ stored.new,
      fun a w seen => absurd ⟨a, w, seen⟩ stored.new, fun _ => ⟨found, stored.new, room, ?_⟩⟩
    intro k y live' into
    obtain ⟨z, before, rfl⟩ := change_eq_some_iff.mp live'
    split at into
    · exact old.ne (Option.some.inj into).symm
    · exact stored.unread k z before into

theorem step_upload {filled : Bytes} (inv : Inv ⟨{}, σ⟩) (apart : Apart σ)
    (received : Received σ e c .sendToWorker filled) (done : step σ e = .ok τ) :
    ∃ t tr x, σ.client c = some x ∧ x.input = some tr.data ∧ σ.tran t = some tr ∧ ¬σ.Dispatched t ∧
      τ.Reading c .command 1 [] ∧ τ.sent c = σ.sent c ∧ Settles σ τ t tr filled := by
  obtain ⟨x, b, u, live, into, reads, called⟩ := runHandler_of_step received done
  obtain ⟨t, tr, uploading, owner, into'⟩ := inv.dispatches.upload c x live reads (by simp)
  obtain rfl := Option.some.inj (into.symm.trans into')
  have live' : (σ.begin c .sendToWorker tr.data filled).client c =
      some { x with handler := none, input := none, used := 0 } :=
    change_eq_some_iff.mpr ⟨x, live, by simp⟩
  have stored : (σ.begin c .sendToWorker tr.data filled).Stored t tr filled := by
    refine ⟨uploading.found, ?_, if_pos rfl, ?_⟩
    · rintro ⟨a, k, seen⟩
      exact uploading.new ⟨a, k, (List.mem_cons.mp seen).resolve_left (by simp)⟩
    · intro k y live'' reads'
      obtain ⟨z, before, rfl⟩ := change_eq_some_iff.mp live''
      split at reads'
      · simp at reads'
      · rename_i other
        exact other (apart k c z x tr.data before live reads' into)
  have fresh : ∀ b contents, (σ.begin c .sendToWorker tr.data filled).buf b = some contents →
      b < (σ.begin c .sendToWorker tr.data filled).next := by
    intro b contents room
    rcases put_eq_some_iff.mp room with ⟨rfl, _⟩ | ⟨_, room⟩
    · exact inv.buffers.old c x _ live into
    · exact inv.fresh.buf b contents room
  have called : sendToWorker e.env c tr.data (σ.begin c .sendToWorker tr.data filled) =
      .ok (u, τ) :=
    called
  obtain ⟨reading, silent, _, _, settles⟩ :=
    sendToWorker_outcome live' uploading.last stored fresh called
  exact ⟨t, tr, x, live, into, uploading.found, uploading.new, reading, silent, settles⟩

theorem accept_outcome {env : Env} {b : BufId} {u : PUnit} {x : Client} {tr : Transaction}
    {len : Nat} {bytes data : Bytes} (inv : Inv ⟨{ run := some c, held := some b }, σ⟩)
    (live : σ.client c = some x) (client : tr.client = c) (new : tr.data = σ.next)
    (stored : ((σ.submit tr len).freeBuf b).buf tr.data = some data)
    (outcome :
      data ≠ [] ∧ τ = (((σ.submit tr len).freeBuf b).write c bytes).arm c .sendToWorker tr.data ∨
        data = [] ∧ sendToWorker env c tr.data
          ((((σ.submit tr len).freeBuf b).write c bytes).observe (.handled c .sendToWorker [])) =
            .ok (u, τ)) :
    (∃ tr', τ.tran (σ.next + 1) = some tr' ∧ tr'.place = tr.place) ∧ τ.sent c = σ.sent c ++ bytes ∧
      (len ≠ 0 ∧ τ.tran (σ.next + 1) = some tr ∧ τ.Reading c .sendToWorker len [] ∧
          (∃ y, τ.client c = some y ∧ y.input = some tr.data) ∨
        len = 0 ∧ τ.Reading c .command 1 [] ∧ Settles σ τ (σ.next + 1) tr []) := by
  have zeros : data = List.replicate len 0 := by
    obtain ⟨_, stored⟩ := put_none_eq_some_iff.mp stored
    exact (Option.some.inj ((if_pos new).symm.trans stored)).symm
  have live' : (σ.submit tr len).client c =
      some { x with requests := x.requests ++ [σ.next + 1] } :=
    change_eq_some_iff.mpr ⟨x, live, by simp [client]⟩
  have found : (σ.submit tr len).tran (σ.next + 1) = some tr := if_pos rfl
  have unread : ∀ k y, (σ.submit tr len).client k = some y → y.input ≠ some tr.data := by
    intro k y live'' into
    obtain ⟨z, before, rfl⟩ := change_eq_some_iff.mp live''
    have into : z.input = some σ.next := by
      rw [← new, ← into]
      split <;> rfl
    exact inv.buffers.unread_next before into
  rcases outcome with ⟨nonempty, rfl⟩ | ⟨rfl, called⟩
  · have long : len ≠ 0 := by
      rintro rfl
      exact nonempty zeros
    have reading :=
      reading_arm (σ := ((σ.submit tr len).freeBuf b).write c bytes) .sendToWorker live' stored
    rw [zeros, List.length_replicate] at reading
    exact ⟨⟨tr, found, rfl⟩, if_pos rfl, .inl ⟨long, found, reading, _,
      change_eq_some_iff.mpr ⟨_, live', rfl⟩, by rw [if_pos rfl]⟩⟩
  · obtain rfl : len = 0 := by simpa using zeros.symm
    set μ := (((σ.submit tr 0).freeBuf b).write c bytes).observe (.handled c .sendToWorker []) with
      μ_eq
    have live' : μ.client c = some { x with requests := x.requests ++ [σ.next + 1] } := live'
    have last : (x.requests ++ [σ.next + 1]).getLast? = some (σ.next + 1) := by simp
    have complete : μ.Stored (σ.next + 1) tr [] := by
      refine ⟨found, ?_, stored, unread⟩
      rintro ⟨a, k, seen⟩
      have seen : .dispatched a k (σ.next + 1) ∈ σ.log :=
        (List.mem_cons.mp seen).resolve_left (by simp)
      have := (inv.fresh.log a k _ seen).2.2
      have : σ.next + 1 < σ.next := this
      omega
    have fresh : ∀ b contents, μ.buf b = some contents → b < μ.next := by
      intro b' contents room
      obtain ⟨_, room⟩ := put_none_eq_some_iff.mp room
      rcases put_eq_some_iff.mp room with ⟨rfl, _⟩ | ⟨_, room⟩
      · exact (Nat.lt_succ_self _).trans (Nat.lt_succ_self _)
      · exact (inv.fresh.buf b' contents room).trans ((Nat.lt_succ_self _).trans
          (Nat.lt_succ_self _))
    obtain ⟨reading, silent, current, others, given, kept⟩ :=
      sendToWorker_outcome live' last complete fresh called
    refine ⟨current, silent.trans (if_pos rfl), .inr ⟨rfl, reading, fun a w seen => ?_, kept⟩⟩
    obtain ⟨v, svc, advert, worker, service, frame⟩ := given a w seen
    have elsewhere : μ.sent w = σ.sent w := if_neg (others a w seen)
    exact ⟨v, svc, advert, worker, service, elsewhere ▸ frame⟩

/-- `TPTCALL`: the call is refused, or a transaction made for it, and its data is read next. -/
theorem step_call {filled : Bytes} (inv : Inv ⟨{}, σ⟩) (received : Received σ e c .svracall filled)
    (done : step σ e = .ok τ) :
    ((σ.fndService (filled.take XATMI_SERVICE_NAME_LENGTH) = none ∨
        (tolong (filled.drop XATMI_SERVICE_NAME_LENGTH)).toInt < 0) ∧
      τ.Reading c .command 1 [] ∧
      τ.sent c = σ.sent c ++ (-1) :: shortBytes (BitVec.ofNat 16 TPENOENT)) ∨
    ∃ (s : ServiceId) (t : TranId) (tr : Transaction) (len : Nat),
      σ.fndService (filled.take XATMI_SERVICE_NAME_LENGTH) = some s ∧
      (tolong (filled.drop XATMI_SERVICE_NAME_LENGTH)).toInt = len ∧
      tr = request e.env c s (tolong (filled.drop (XATMI_SERVICE_NAME_LENGTH + IOLONG))) σ.next ∧
      σ.next ≤ t ∧ (∃ tr', τ.tran t = some tr' ∧ tr'.place = tr.place) ∧
      τ.sent c = σ.sent c ++ 0 :: shortBytes e.env.cd ∧
      (len ≠ 0 ∧ τ.tran t = some tr ∧ τ.Reading c .sendToWorker len [] ∧
          (∃ y, τ.client c = some y ∧ y.input = some tr.data) ∨
        len = 0 ∧ τ.Reading c .command 1 [] ∧ Settles σ τ t tr []) := by
  obtain ⟨x, b, contents, live, into, reads, room, length, nonempty, _⟩ := step_of_received received
  obtain ⟨y, b', u, live', into', _, called⟩ := runHandler_of_step received done
  obtain rfl := Option.some.inj (live.symm.trans live')
  obtain rfl := Option.some.inj (into.symm.trans into')
  have begun : Inv ⟨{ run := some c, held := some b }, σ.begin c .svracall b filled⟩ :=
    inv.effect (.begin received live into reads room length nonempty)
  have full : (σ.begin c .svracall b filled).buf b = some filled := if_pos rfl
  obtain ⟨contents, y, room', live', idle, outcome⟩ := svracall_ok called
  obtain rfl := Option.some.inj (full.symm.trans room')
  rcases outcome with ⟨refused, rfl⟩ | ⟨s, tr, len, data, service, length, rfl, _, stored, outcome⟩
  · exact .inl ⟨refused, reading_nextCommand live', if_pos rfl⟩
  · obtain ⟨current, answer, rest⟩ := accept_outcome begun live' rfl rfl stored outcome
    exact .inr ⟨s, σ.next + 1, _, len, service, length, rfl, Nat.le_succ _, current, answer, rest⟩

end Switchboard
end Xatmi
