import Xatmi.Switchboard.Answers

/-!
# What a worker is sent

Whoever is given a transaction, by `send_to_worker` or by `svrservice`, is sent it in the same step.
-/

namespace Xatmi
namespace Switchboard

variable {e : Event} {σ τ : State} {c : ClientId}

/-! ## When transactions are given out -/

/-- A transaction is in the hands of `send_to_worker` because a client has sent it. -/
theorem received_of_up {κ : Conf} (trace : Trace σ e ⟨{}, σ⟩ κ) {t : TranId}
    (up : κ.phase.up = some t) :
    ∃ k filled, Received σ e k .svracall filled ∨ Received σ e k .sendToWorker filled := by
  induction trace with
  | refl => cases up
  | tail sofar eff ih =>
      cases eff with
      | @begin _ k x handler _ _ filled received =>
          simp only [Phase.called] at up
          split at up
          · rename_i uploads
            subst uploads
            exact ⟨k, filled, .inr received⟩
          · cases up
      | @submit _ _ k _ _ _ _ _ _ _ _ _ _ _ _ _ _ asked =>
          obtain ⟨filled, received⟩ := asked
          exact ⟨k, filled, .inl received⟩
      | connect | fill | armUpload | enqueue | assignUp | close | done => cases up
      | _ => exact ih up

theorem log_of_trace {κ : Conf} (trace : Trace σ e ⟨{}, σ⟩ κ) :
    ∃ new, κ.state.log = new ++ σ.log ∧ ∀ a w t, .dispatched a w t ∈ new →
      (∃ k, Commands σ e k TPTWORK) ∨
        ∃ k filled, Received σ e k .svracall filled ∨ Received σ e k .sendToWorker filled := by
  induction trace with
  | refl => exact ⟨[], rfl, by simp⟩
  | tail sofar eff ih =>
      obtain ⟨new, log, given⟩ := ih
      have later : ∀ (seen : Obs) {reason : Prop}, (∀ a w t, seen = .dispatched a w t → reason) →
          (∀ a w t, Obs.dispatched a w t ∈ new → reason) →
          ∀ a w t, .dispatched a w t ∈ seen :: new → reason := by
        intro seen reason now before a w t member
        rcases List.mem_cons.mp member with same | member
        · exact now a w t same.symm
        · exact before a w t member
      cases eff with
      | begin | call => exact ⟨_ :: new, congrArg (List.cons _) log, later _ (by simp) given⟩
      | assignUp up =>
          exact ⟨_ :: new, congrArg (List.cons _) log,
            later _ (fun _ _ _ _ => .inr (received_of_up sofar up)) given⟩
      | assignWork _ asked =>
          exact ⟨_ :: new, congrArg (List.cons _) log,
            later _ (fun _ _ _ _ => .inl ⟨_, asked⟩) given⟩
      | _ => exact ⟨new, log, given⟩

/-! ## What is sent -/

/-- Client `w` has been given transaction `t` through its advertisement `a`, and has been sent
it. -/
structure HandsOver (σ τ : State) (a : AdvertId) (w : ClientId) (t : TranId) (v : Advert)
    (tr : Transaction) (svc : Service) (data : Bytes) : Prop where
  advert : σ.advert a = some v
  owner : v.client = w
  service : σ.service v.svc = some svc
  found : τ.tran t = some tr
  same : tr.svc = v.svc
  executor : tr.executor = some a
  kept : τ.advert a = some v
  worker : ∃ x, τ.client w = some x ∧ x.handler = some .command ∧ x.wait4 = some (.tran t)
  room : τ.buf tr.data = some data
  sent : τ.sent w = σ.sent w ++ workFrame v tr svc.svcname data
  reading : τ.Reading w .command 1 []

/-- The record of `τ` goes on from that of `σ`, and whoever is given a transaction meanwhile is sent
it. -/
def Sends (σ τ : State) : Prop :=
  ∃ new, τ.log = new ++ σ.log ∧ ∀ a w t, .dispatched a w t ∈ new →
    ∃ v tr svc data, HandsOver σ τ a w t v tr svc data

theorem handsOver_assign {μ : State} (adverts : List AdvertId) {a : AdvertId} {v : Advert}
    {t : TranId} {tr : Transaction} {svc : Service} {data : Bytes} {x : Client}
    (advert : σ.advert a = some v) (kept : μ.advert a = some v)
    (worker : μ.client v.client = some x) (found : μ.tran t = some tr) (same : tr.svc = v.svc)
    (service : σ.service tr.svc = some svc) (room : μ.buf tr.data = some data)
    (fresh : ∀ b contents, μ.buf b = some contents → b < μ.next)
    (silent : μ.sent v.client = σ.sent v.client) :
    HandsOver σ ((μ.dismiss adverts).assign a v t (workFrame v tr svc.svcname data)) a v.client t v
      { tr with executor := some a } svc data := by
  have given :
      ((μ.dismiss adverts).mapClient v.client fun x => { x with wait4 := some (.tran t) }).client
        v.client = some { x with wait4 := some (.tran t) } :=
    change_eq_some_iff.mpr ⟨x, worker, (if_pos rfl).symm⟩
  refine ⟨advert, rfl, same ▸ service, change_eq_some_iff.mpr ⟨tr, found, (if_pos rfl).symm⟩, same,
    rfl, kept, ⟨_, change_eq_some_iff.mpr ⟨_, given, (if_pos rfl).symm⟩, rfl, rfl⟩,
    put_eq_some_iff.mpr (.inr ⟨(fresh _ _ room).ne, room⟩), ?_, ?_⟩
  · rw [← silent]
    exact if_pos rfl
  · have worker' : (μ.dismiss adverts).client v.client = some x := worker
    exact reading_assign worker'

/-- The advertisements at the front of queues are for their services. -/
def FrontNear (σ : State) : Prop :=
  ∀ s svc a v, σ.service s = some svc → svc.waitContainsTransactions = false →
    σ.links.p2 (.head s) = .adv a → σ.advert a = some v → v.svc = s

theorem WaitQueues.frontNear (waits : WaitQueues σ) : FrontNear σ := by
  intro s svc a v service workers first advert
  have near := (waits.head s svc service workers).2
  rw [first] at near
  exact near v advert

theorem sendToWorker_sends {env : Env} {b : BufId} {u : PUnit} {x : Client} {t : TranId}
    (near : FrontNear σ) (fresh : ∀ b contents, σ.buf b = some contents → b < σ.next)
    (live : σ.client c = some x) (last : x.requests.getLast? = some t)
    (done : sendToWorker env c b σ = .ok (u, τ)) :
    ∃ new, τ.log = new ++ σ.log ∧ ∀ a w t, .dispatched a w t ∈ new →
      w ≠ c ∧ ∃ v tr svc data, HandsOver σ τ a w t v tr svc data := by
  obtain ⟨_, tr, svc, found, service, outcome⟩ := sendToWorker_ok live last done
  rcases outcome with ⟨a, v, y, data, workers, _, first, advert, worker, idle, _, room, rfl⟩ |
    ⟨_, _, rfl⟩
  · have fresh' : ∀ b contents, (σ.nextCommand c).buf b = some contents →
        b < (σ.nextCommand c).next := by
      intro b contents room
      rcases put_eq_some_iff.mp room with ⟨rfl, _⟩ | ⟨_, room⟩
      · exact Nat.lt_succ_self _
      · exact (fresh b contents room).trans (Nat.lt_succ_self _)
    have other : v.client ≠ c := by
      intro same
      obtain ⟨z, _, _, armed, reads, _⟩ := reading_nextCommand live
      obtain rfl := Option.some.inj (armed.symm.trans (same ▸ worker))
      simp [idle.1] at reads
    refine ⟨[.dispatched a v.client t], rfl, fun a' w t' member => ?_⟩
    obtain ⟨rfl, rfl, rfl⟩ := Obs.dispatched.inj (List.mem_singleton.mp member)
    have same : tr.svc = v.svc := (near tr.svc svc a' v service workers first advert).symm
    exact ⟨other, v, _, svc, data, handsOver_assign _ advert advert worker found same service room
      fresh' rfl⟩
  · exact ⟨[], rfl, by simp⟩

theorem svrservice_sends {env : Env} {b : BufId} {u : PUnit} (waits : WaitQueues σ)
    (fresh : ∀ b contents, σ.buf b = some contents → b < σ.next)
    (done : svrservice env c b σ = .ok (u, τ)) : Sends σ τ := by
  obtain ⟨contents, x, _, live, ⟨_, parked⟩ | ⟨a, t, v, y, tr, svc, data, _, member, advert, flag,
    _, first, worker, _, _, found, service, room, rfl⟩⟩ := svrservice_ok done
  · obtain ⟨links, service, rfl⟩ := forM_addToWaitq_frame parked
    exact ⟨[], rfl, by simp⟩
  · refine ⟨[.dispatched a v.client t], rfl, fun a' w t' member' => ?_⟩
    obtain ⟨rfl, rfl, rfl⟩ := Obs.dispatched.inj (List.mem_singleton.mp member')
    obtain ⟨waiting, queue, members⟩ := waits.queue v.svc flag
    have front := (queue.2.neighbours_mem (n := .head v.svc) (by simp)).2
    rw [first] at front
    obtain ⟨tr', found', same⟩ := members t' (by simpa using front)
    obtain rfl := Option.some.inj (found.symm.trans found')
    exact ⟨v, _, svc, data, handsOver_assign _ advert advert worker found same service room
      (fun b contents room => fresh b contents (put_none_eq_some_iff.mp room).2) rfl⟩

theorem svracall_sends {env : Env} {b : BufId} {u : PUnit} (near : FrontNear σ)
    (fresh : ∀ b contents, σ.buf b = some contents → b < σ.next)
    (done : svracall env c b σ = .ok (u, τ)) :
    Sends σ τ := by
  obtain ⟨contents, x, _, live, _, ⟨_, rfl⟩ | ⟨s, tr, len, data, _, _, rfl, _, _, ⟨_, rfl⟩ |
      ⟨_, called⟩⟩⟩ :=
    svracall_ok done
  · exact ⟨[], rfl, by simp⟩
  · exact ⟨[], rfl, by simp⟩
  · set tr := request env c s (tolong (contents.drop (XATMI_SERVICE_NAME_LENGTH + IOLONG))) σ.next
    set μ := (((σ.submit tr len).freeBuf b).write c (0 :: shortBytes tr.cd)).observe
      (.handled c .sendToWorker [])
    have live' : μ.client c = some { x with requests := x.requests ++ [σ.next + 1] } :=
      change_eq_some_iff.mpr ⟨x, live, by simp [tr, request]⟩
    have near' : FrontNear μ := near
    have last : (x.requests ++ [σ.next + 1]).getLast? = some (σ.next + 1) := by simp
    have fresh' : ∀ b contents, μ.buf b = some contents → b < μ.next := by
      intro b' contents room
      obtain ⟨_, room⟩ := put_none_eq_some_iff.mp room
      rcases put_eq_some_iff.mp room with ⟨rfl, _⟩ | ⟨_, room⟩
      · exact (Nat.lt_succ_self _).trans (Nat.lt_succ_self _)
      · exact (fresh b' contents room).trans ((Nat.lt_succ_self _).trans (Nat.lt_succ_self _))
    obtain ⟨new, log, given⟩ := sendToWorker_sends near' fresh' live' last called
    have before : μ.log = .handled c .sendToWorker [] :: σ.log := rfl
    refine ⟨new ++ [.handled c .sendToWorker []], by simp [log, before], fun a w t member => ?_⟩
    obtain ⟨other, v, tr', svc, data', given⟩ := given a w t (by simpa using member)
    have silent : μ.sent w = σ.sent w := if_neg other
    exact ⟨v, tr', svc, data', { given with sent := silent ▸ given.sent }⟩

theorem Sends.of_handled {μ : State} {handler : Handler} {filled : Bytes}
    (sends : Sends μ τ) (log : μ.log = .handled c handler filled :: σ.log)
    (advert : μ.advert = σ.advert) (service : μ.service = σ.service) (sent : μ.sent = σ.sent) :
    Sends σ τ := by
  obtain ⟨new, log', given⟩ := sends
  refine ⟨new ++ [.handled c handler filled], by simp [log', log], fun a w t member => ?_⟩
  obtain ⟨v, tr, svc, data, given⟩ := given a w t (by simpa using member)
  exact ⟨v, tr, svc, data, { given with
    advert := advert ▸ given.advert, service := service ▸ given.service, sent :=
      sent ▸ given.sent }⟩

/-- In every step, whoever is given a transaction is sent it. -/
theorem step_sends (inv : Inv ⟨{}, σ⟩) (done : step σ e = .ok τ) : Sends σ τ := by
  have near : FrontNear σ := inv.waits.frontNear
  have fresh : ∀ {k x handler b filled}, σ.client k = some x → x.input = some b →
      ∀ b' contents, (σ.begin k handler b filled).buf b' = some contents → b' < σ.next := by
    intro k x handler b filled live into b' contents room
    rcases put_eq_some_iff.mp room with ⟨rfl, _⟩ | ⟨_, room⟩
    · exact inv.buffers.old k x _ live into
    · exact inv.fresh.buf b' contents room
  obtain ⟨new, log, reason⟩ := log_of_trace (step_trace inv done)
  by_cases given : ∃ a w t, Obs.dispatched a w t ∈ new
  · obtain ⟨a, w, t, member⟩ := given
    rcases reason a w t member with ⟨k, filled, received, work⟩ | ⟨k, filled, received | received⟩
    · obtain ⟨x, b, u, live, into, reads, called⟩ := runHandler_of_step received done
      have room : (σ.begin k .command b filled).buf b = some filled := if_pos rfl
      have known : commands[(filled.getD 0 0).toNat]? = some (.svrservice, 0) := by rw [work]; rfl
      obtain ⟨y, live', _, ⟨impossible, _⟩ | ⟨_, _, _, served⟩⟩ := command_ok room known called
      · exact absurd rfl impossible
      · set μ := (((σ.begin k .command b filled).freeBuf b).allocBuf []).observe
          (.handled k .svrservice [])
        have waits : WaitQueues μ := inv.waits.congr rfl rfl rfl (fun _ => rfl) (Nat.le_succ _)
        have fresh' : ∀ b' contents, μ.buf b' = some contents → b' < μ.next := by
          intro b' contents room
          rcases put_eq_some_iff.mp room with ⟨rfl, _⟩ | ⟨_, room⟩
          · exact Nat.lt_succ_self _
          · exact (fresh live into b' contents (put_none_eq_some_iff.mp room).2).trans
              (Nat.lt_succ_self _)
        have begun : Sends (σ.begin k .command b filled) τ :=
          (svrservice_sends waits fresh' served).of_handled rfl rfl rfl rfl
        exact begun.of_handled rfl rfl rfl rfl
    · obtain ⟨x, b, u, live, into, _, called⟩ := runHandler_of_step received done
      have near' : FrontNear (σ.begin k .svracall b filled) := near
      exact (svracall_sends near' (fresh live into) called).of_handled rfl rfl rfl rfl
    · obtain ⟨x, b, u, live, into, reads, called⟩ := runHandler_of_step received done
      obtain ⟨t', tr, uploading, _⟩ := inv.dispatches.upload k x live reads (by simp)
      have live' : (σ.begin k .sendToWorker b filled).client k =
          some { x with handler := none, input := none, used := 0 } :=
        change_eq_some_iff.mpr ⟨x, live, by simp⟩
      have near' : FrontNear (σ.begin k .sendToWorker b filled) := near
      have called : sendToWorker e.env k b (σ.begin k .sendToWorker b filled) = .ok (u, τ) := called
      obtain ⟨new', log', given⟩ :=
        sendToWorker_sends near' (fresh live into) live' uploading.last called
      have begun : Sends (σ.begin k .sendToWorker b filled) τ :=
        ⟨new', log', fun a w t member => (given a w t member).2⟩
      exact begun.of_handled rfl rfl rfl rfl
  · simp only [not_exists] at given
    exact ⟨new, log, fun a w t member => absurd member (given a w t)⟩

end Switchboard
end Xatmi
