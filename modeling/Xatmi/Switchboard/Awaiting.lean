import Xatmi.Switchboard.Answers
import Xatmi.Switchboard.Progress
import Xatmi.Switchboard.Scenario

/-!
# Waiting for a reply

`svrgetrply` answers with a reply that is there, reports an error, or leaves the client waiting.
With `TPGETANY` it does not look whether any request is outstanding, so a client can be left waiting
for nothing.
-/

namespace Xatmi
namespace Switchboard

open Program

variable {σ τ : State} {e : Event} {c : ClientId}

/-! ## What is asked for -/

/-- The request of a `TPTGRPLY` is for any reply. -/
def AsksAny (request : Bytes) : Prop :=
  tolong (request.drop IOSHORT) &&& TPGETANY ≠ 0

/-- The client does not want to wait. -/
def AsksNow (request : Bytes) : Prop :=
  tolong (request.drop IOSHORT) &&& TPNOBLOCK ≠ 0

instance (request : Bytes) : Decidable (AsksAny request) :=
  inferInstanceAs (Decidable (_ ≠ _))

instance (request : Bytes) : Decidable (AsksNow request) :=
  inferInstanceAs (Decidable (_ ≠ _))

/-- The reply to transaction `t` is one the client asks for. -/
def State.Asked (σ : State) (request : Bytes) (t : TranId) : Prop :=
  AsksAny request ∨ ∃ tr, σ.tran t = some tr ∧ tr.cd = toshort request

theorem findCd_eq_none_iff {queue : List TranId} {cd : BitVec 16} :
    σ.findCd queue cd = none ↔ ∀ t ∈ queue, ¬∃ tr, σ.tran t = some tr ∧ tr.cd = cd := by
  simp [State.findCd, List.find?_eq_none, Option.any_eq_true]

theorem findCd_elim {queue : List TranId} {cd : BitVec 16} {t : TranId}
    (found : σ.findCd queue cd = some t) : t ∈ queue ∧ ∃ tr, σ.tran t = some tr ∧ tr.cd = cd := by
  refine ⟨mem_of_findCd found, ?_⟩
  have hit := List.find?_some found
  simpa [Option.any_eq_true] using hit

theorem search_elim {request : Bytes} {queue : List TranId} {t : TranId}
    (found : (if tolong (request.drop IOSHORT) &&& TPGETANY = 0 then
      σ.findCd queue (toshort request) else queue.head?) = some t) :
    t ∈ queue ∧ σ.Asked request t := by
  split at found
  · obtain ⟨member, same⟩ := findCd_elim found
    exact ⟨member, .inr same⟩
  · next any => exact ⟨List.mem_of_head? found, .inl any⟩

theorem search_none {request : Bytes} {queue : List TranId}
    (missing : (if tolong (request.drop IOSHORT) &&& TPGETANY = 0 then
      σ.findCd queue (toshort request) else queue.head?) = none) :
    ∀ t ∈ queue, ¬σ.Asked request t := by
  split at missing
  · next one =>
      intro t member
      rintro (any | same)
      · exact any one
      · exact findCd_eq_none_iff.mp missing t member same
  · intro t member
    rw [List.head?_eq_none_iff.mp missing] at member
    cases member

/-! ## The answer -/

/-- Client `c` has been sent `frame`, nobody else has been sent anything, and a command is read from
`c` next, the buffer for it being the only one that was allocated. -/
structure AnsweredWith (σ τ : State) (c : ClientId) (frame : Bytes) : Prop where
  sent : τ.sent = (σ.write c frame).sent
  reading : τ.Reading c .command 1 []
  once : τ.next = σ.next + 1

/-- Nothing has been sent, and nothing is read from client `c` until what it waits for is there. -/
structure LeftWaiting (σ τ : State) (c : ClientId) (w : Wait) : Prop where
  sent : τ.sent = σ.sent
  waiting : ∃ y, τ.client c = some y ∧ y.Idle ∧ y.wait4 = some w
  nothing : τ.next = σ.next

/-- What `senderrno` writes. -/
def errorFrame (errno : Nat) : Bytes :=
  TPERRNO.setWidth 8 :: shortBytes (BitVec.ofNat 16 errno)

theorem answeredWith_error {x : Client} {b : BufId} (live : σ.client c = some x) (frame : Bytes) :
    AnsweredWith σ (((σ.freeBuf b).write c frame).nextCommand c) c frame := by
  have live' : ((σ.freeBuf b).write c frame).client c = some x := live
  exact ⟨rfl, reading_nextCommand live', rfl⟩

/-- Deleting a transaction does not touch what is being read, its own data apart. -/
theorem State.Reading.delTran {handler : Handler} {room : Nat} {got : Bytes} {t : TranId}
    {tr : Transaction} (reading : σ.Reading c handler room got)
    (apart : ∀ x, σ.client c = some x → x.input ≠ some tr.data) :
    (σ.delTran t tr).Reading c handler room got := by
  obtain ⟨x, b, contents, live, reads, into, used, stored, length⟩ := reading
  have live' : (σ.delTran t tr).client c = some (σ.bereave t tr c x) := by
    simp [State.delTran, live]
  have different : b ≠ tr.data := by
    rintro rfl
    exact apart x live into
  exact ⟨_, b, contents, live', reads, into, used, (if_neg different).trans stored, length⟩

/-- Whoever is answered reads a command next. -/
theorem reading_reply {x : Client} {t : TranId} {tr : Transaction} (data : Bytes)
    (live : σ.client tr.client = some x) (old : tr.data < σ.next) :
    (σ.reply t tr data).Reading tr.client .command 1 [] := by
  refine State.Reading.delTran ?_ ?_
  · have live' : (σ.write tr.client (replyFrame tr data)).client tr.client = some x := live
    obtain ⟨y, b', contents, armed, rest⟩ := reading_nextCommand live'
    exact ⟨{ y with wait4 := none }, b', contents,
      change_eq_some_iff.mpr ⟨y, armed, (if_pos rfl).symm⟩, rest⟩
  · intro y answered
    obtain ⟨z, armed, rfl⟩ := change_eq_some_iff.mp answered
    obtain ⟨z', _, rfl⟩ := change_eq_some_iff.mp armed
    rw [if_pos rfl, if_pos rfl]
    intro same
    exact old.ne (Option.some.inj same).symm

theorem answeredWith_reply {x : Client} {b : BufId} {t : TranId} {tr : Transaction} (data : Bytes)
    (live : σ.client tr.client = some x) (old : tr.data < σ.next) :
    AnsweredWith σ ((σ.freeBuf b).reply t tr data) tr.client (replyFrame tr data) := by
  have live' : (σ.freeBuf b).client tr.client = some x := live
  exact ⟨rfl, reading_reply data live' old, rfl⟩

/-! ## `svrgetrply` -/

/-- What becomes of a request by client `x`: it gets a reply it asks for if there is one,
`TPEBADDESC` if there is no request it could wait for, and otherwise `TPEBLOCK` or nothing yet. -/
def State.Resolves (σ τ : State) (c : ClientId) (x : Client) (request : Bytes) : Prop :=
  (∃ t ∈ x.replies, σ.Asked request t ∧ ∃ tr data, σ.tran t = some tr ∧ tr.client = c ∧
      σ.buf tr.data = some data ∧ AnsweredWith σ τ c (replyFrame tr data) ∧ τ.tran t = none) ∨
    (∀ t ∈ x.replies, ¬σ.Asked request t) ∧
      ((∀ t ∈ x.requests, ¬σ.Asked request t) ∧ AnsweredWith σ τ c (errorFrame TPEBADDESC) ∨
        ∃ t ∈ x.requests, σ.Asked request t ∧
          if AsksNow request then AnsweredWith σ τ c (errorFrame TPEBLOCK)
          else LeftWaiting σ τ c (if AsksAny request then .any else .tran t))

theorem svrgetrply_sends {b : BufId} {request data : Bytes} {x y : Client} {t : TranId}
    {tr : Transaction} (room : σ.buf b = some request) (live : σ.client c = some x)
    (reply : (if tolong (request.drop IOSHORT) &&& TPGETANY = 0 then
      σ.findCd x.replies (toshort request) else x.replies.head?) = some t)
    (deletable : (σ.freeBuf b).Deletable t tr) (stored : (σ.freeBuf b).buf tr.data = some data)
    (owner : σ.client tr.client = some y) (idle : y.Idle) :
    svrgetrply c b σ = .ok (⟨⟩, (σ.freeBuf b).reply t tr data) := by
  have live' : (σ.freeBuf b).client c = some x := live
  have search : ∀ queue cd, (σ.freeBuf b).findCd queue cd = σ.findCd queue cd := fun _ _ => rfl
  unfold svrgetrply
  rw [bind_of_ok (readBuf_ok_iff.mpr ⟨room, rfl⟩)]
  simp only [seq_of_ok (tpfree_ok_iff.mpr ⟨⟨request, room⟩, rfl⟩)]
  rw [bind_of_ok (readClient_ok_iff.mpr ⟨live', rfl⟩), bind_of_ok (get_ok_iff.mpr ⟨rfl, rfl⟩)]
  simp only [search, reply]
  exact sndReply_ok_iff.mpr ⟨tr, data, y, deletable, stored, owner, idle, rfl⟩

/-- `svrgetrply` for a client that is not being read from, whose replies can be delivered and which
has something outstanding if it asks for any reply. -/
theorem svrgetrply_resolves {b : BufId} {request : Bytes} {x : Client}
    (room : σ.buf b = some request) (live : σ.client c = some x) (idle : x.Idle)
    (deliverable : ∀ t ∈ x.replies, ∃ tr data, (σ.freeBuf b).Deletable t tr ∧
      (σ.freeBuf b).buf tr.data = some data ∧ σ.buf tr.data = some data ∧ tr.client = c ∧
      tr.data < σ.next)
    (outstanding : AsksAny request → x.replies = [] → x.requests ≠ []) :
    ∃ τ, svrgetrply c b σ = .ok (⟨⟩, τ) ∧ σ.Resolves τ c x request := by
  have live' : (σ.freeBuf b).client c = some x := live
  have error : ∀ errno, senderrno c errno (σ.freeBuf b) =
      .ok (⟨⟩, ((σ.freeBuf b).write c (errorFrame errno)).nextCommand c) :=
    fun errno => senderrno_ok_iff.mpr ⟨⟨x, live', idle⟩, rfl⟩
  have answered := fun errno => answeredWith_error (b := b) live (errorFrame errno)
  cases reply : (if tolong (request.drop IOSHORT) &&& TPGETANY = 0
      then σ.findCd x.replies (toshort request) else x.replies.head?) with
  | some t =>
      obtain ⟨member, asked⟩ := search_elim reply
      obtain ⟨tr, data, deletable, stored, stored', rfl, old⟩ := deliverable t member
      refine ⟨_, svrgetrply_sends room live reply deletable stored live idle, .inl ?_⟩
      exact ⟨t, member, asked, tr, data, deletable.live, rfl, stored',
        answeredWith_reply data live old, if_pos rfl⟩
  | none =>
      have missing := search_none reply
      have search : ∀ queue cd, (σ.freeBuf b).findCd queue cd = σ.findCd queue cd := fun _ _ => rfl
      unfold svrgetrply
      rw [bind_of_ok (readBuf_ok_iff.mpr ⟨room, rfl⟩)]
      simp only [seq_of_ok (tpfree_ok_iff.mpr ⟨⟨request, room⟩, rfl⟩)]
      rw [bind_of_ok (readClient_ok_iff.mpr ⟨live', rfl⟩), bind_of_ok (get_ok_iff.mpr ⟨rfl, rfl⟩)]
      simp only [search, reply]
      cases awaited : (if tolong (request.drop IOSHORT) &&& TPGETANY = 0
          then (σ.findCd x.requests (toshort request)).map Wait.tran else some .any) with
      | none =>
          refine ⟨_, error TPEBADDESC, .inr ⟨missing, .inl ⟨?_, answered TPEBADDESC⟩⟩⟩
          split at awaited
          · next one =>
              intro t member
              rintro (any | same)
              · exact any one
              · exact findCd_eq_none_iff.mp (Option.map_eq_none_iff.mp awaited) t member same
          · cases awaited
      | some w =>
          have waits : ∃ t ∈ x.requests, σ.Asked request t ∧
              w = if AsksAny request then .any else .tran t := by
            split at awaited
            · next one =>
                obtain ⟨t, found, rfl⟩ := Option.map_eq_some_iff.mp awaited
                obtain ⟨member, same⟩ := findCd_elim found
                exact ⟨t, member, .inr same, (if_neg (not_not.mpr one)).symm⟩
            · next any =>
                have none_ : x.replies = [] := by
                  rw [if_neg any] at reply
                  exact List.head?_eq_none_iff.mp reply
                obtain ⟨t, member⟩ := List.exists_mem_of_ne_nil _ (outstanding any none_)
                exact ⟨t, member, .inl any, (Option.some.inj awaited).symm.trans (if_pos any).symm⟩
          obtain ⟨t, member, asked, rfl⟩ := waits
          simp only []
          by_cases now : AsksNow request
          · refine ⟨_, (congrFun (if_pos now) _).trans (error TPEBLOCK), .inr ⟨missing, .inr ?_⟩⟩
            exact ⟨t, member, asked, by rw [if_pos now]; exact answered TPEBLOCK⟩
          · refine ⟨_, (congrFun (if_neg now) _).trans (modifyClient_ok_iff.mpr ⟨⟨x, live'⟩, rfl⟩),
              .inr ⟨missing, .inr ⟨t, member, asked, ?_⟩⟩⟩
            rw [if_neg now]
            exact ⟨rfl, ⟨_, change_eq_some_iff.mpr ⟨x, live', (if_pos rfl).symm⟩, idle, rfl⟩, rfl⟩

theorem deliverable_of_begin {x : Client} {b : BufId} (filled : Bytes) {t : TranId}
    (inv : Inv ⟨{}, σ⟩) (live : σ.client c = some x) (into : x.input = some b)
    (reading : x.handler = some .svrgetrply) (member : t ∈ x.replies)
    (executors : ∀ tr a, σ.tran t = some tr → tr.executor = some a → ∃ v, σ.advert a = some v) :
    ∃ tr data, ((σ.begin c .svrgetrply b filled).freeBuf b).Deletable t tr ∧
      ((σ.begin c .svrgetrply b filled).freeBuf b).buf tr.data = some data ∧
      σ.buf tr.data = some data ∧ tr.client = c ∧ tr.data ≠ b ∧ tr.data < σ.next := by
  obtain ⟨tr, found, owner⟩ := inv.own.mine c x t live (List.mem_append_right _ member)
  obtain ⟨data, stored⟩ := inv.buffers.data t tr found
  have apart : tr.data ≠ b :=
    (inv.buffers.reading c x b live ⟨into, .svrgetrply, reading, rfl⟩).1.apart t tr found
  have kept : ((σ.begin c .svrgetrply b filled).freeBuf b).buf tr.data = some data :=
    (if_neg apart).trans ((if_neg apart).trans stored)
  have lives : ∀ {k y}, σ.client k = some y →
      ∃ y', ((σ.begin c .svrgetrply b filled).freeBuf b).client k = some y' :=
    fun live => ⟨_, change_eq_some_iff.mpr ⟨_, live, rfl⟩⟩
  have deletable : σ.Deletable t tr := by
    refine inv.deletable found fun a executor => ?_
    obtain ⟨v, advert⟩ := executors tr a found executor
    obtain ⟨y, live, _⟩ := inv.registry.offered a v advert (by simp)
    exact ⟨v, advert, y, live⟩
  refine ⟨tr, data, ⟨found, ?_, deletable.unlinkable, ?_, data, kept⟩, kept, stored, owner, apart,
    inv.fresh.buf _ data stored⟩
  · obtain ⟨y, live⟩ := deletable.owner
    exact lives live
  · intro a executor
    obtain ⟨v, advert, y, live⟩ := deletable.executor a executor
    exact ⟨v, advert, lives live⟩

/-- Unless it asks for any reply with nothing outstanding, a client that sends `TPTGRPLY` is
answered at once and read from again, or has a request whose completion releases it. -/
theorem getrply_resolves {x : Client} {request : Bytes} (reach : Reachable anyStep σ)
    (received : Received σ e c .svrgetrply request) (live : σ.client c = some x)
    (executors : ∀ t ∈ x.replies, ∀ tr a, σ.tran t = some tr → tr.executor = some a →
      ∃ v, σ.advert a = some v)
    (outstanding : AsksAny request → x.replies = [] → x.requests ≠ []) :
    ∃ τ, step σ e = .ok τ ∧ σ.Resolves τ c x request := by
  have inv := inv_of_reachable reach
  obtain ⟨y, b, contents, live', into, reading, room, length, nonempty, called⟩ :=
    step_of_received received
  obtain rfl := Option.some.inj (live.symm.trans live')
  let y : Client := { x with handler := none, input := none, used := 0 }
  have begun : (σ.begin c .svrgetrply b request).client c = some y :=
    change_eq_some_iff.mpr ⟨x, live, (if_pos rfl).symm⟩
  have idle : y.Idle := ⟨rfl, rfl, rfl⟩
  have deliverable := fun t member =>
    deliverable_of_begin request inv live into reading member (executors t member)
  obtain ⟨τ, done, resolved⟩ := svrgetrply_resolves (if_pos rfl) begun idle
    (fun t member => by
      obtain ⟨tr, data, deletable, kept, stored, owner, apart, old⟩ := deliverable t member
      exact ⟨tr, data, deletable, kept, (if_neg apart).trans stored, owner, old⟩) outstanding
  refine ⟨τ, by rw [called]; exact congrArg (Except.map Prod.snd) done, ?_⟩
  have same : ∀ {frame}, AnsweredWith (σ.begin c .svrgetrply b request) τ c frame →
      AnsweredWith σ τ c frame :=
    fun answered => ⟨answered.sent, answered.reading, answered.once⟩
  rcases resolved with ⟨t, member, asked, tr, data, found, owner, stored, answered, gone⟩ | rest
  · obtain ⟨tr', data', deletable, kept, stored', _, apart, _⟩ := deliverable t member
    obtain rfl := Option.some.inj (found.symm.trans deletable.live)
    obtain rfl := Option.some.inj (((if_neg apart).symm.trans stored).symm.trans stored')
    exact .inl ⟨t, member, asked, tr, data, found, owner, stored', same answered, gone⟩
  · obtain ⟨missing, ⟨nothing, answered⟩ | ⟨t, member, asked, rest⟩⟩ := rest
    · exact .inr ⟨missing, .inl ⟨nothing, same answered⟩⟩
    · refine .inr ⟨missing, .inr ⟨t, member, asked, ?_⟩⟩
      split
      · next now => exact same (by rwa [if_pos now] at rest)
      · next patient =>
          rw [if_neg patient] at rest
          exact ⟨rest.sent, rest.waiting, rest.nothing⟩

open Scenario in
/-- A client whose request has been executed asks for any reply. -/
theorem getrply_resolves_reply :
    ∃ σ τ tr data, Reachable anyStep σ ∧
      step σ (receive 2 (shortBytes 0 ++ longBytes TPGETANY) 0) = .ok τ ∧ σ.tran 11 = some tr ∧
      AnsweredWith σ τ 2 (replyFrame tr data) := by
  let request := shortBytes 0 ++ longBytes TPGETANY
  obtain ⟨σ, -, reach, seen⟩ := reachable_of_outcome
    ([connect, connect] ++ advertise 0 65 ++ work 0 ++ call 2 65 0 9 ++ giveBack 0 2 0 ++
      [receive 2 [TPTGRPLY] 0])
    (fun σ => decide (received σ (receive 2 request 0) = some (2, .svrgetrply, request) ∧
      (σ.client 2).map Client.replies = some [11] ∧
      (σ.tran 11).map Transaction.executor = some none)) true (by decide +kernel)
  obtain ⟨received, replies, executor⟩ := of_decide_eq_true seen
  obtain ⟨x, live, replies⟩ := Option.map_eq_some_iff.mp replies
  obtain ⟨tr, found, executor⟩ := Option.map_eq_some_iff.mp executor
  obtain ⟨τ, done, resolved⟩ := getrply_resolves reach received live
    (by
      intro t member tr' a found' executor'
      obtain rfl : t = 11 := by simpa [replies] using member
      obtain rfl := Option.some.inj (found.symm.trans found')
      rw [executor] at executor'
      cases executor')
    (by simp [replies])
  rcases resolved with ⟨t, member, _, tr', data, found', _, _, answered, _⟩ | ⟨missing, _⟩
  · obtain rfl : t = 11 := by simpa [replies] using member
    exact ⟨σ, τ, tr', data, reach, done, found', answered⟩
  · exact absurd (.inl (by decide +kernel)) (missing 11 (by simp [replies]))

open Scenario in
/-- A client without any request asks for any reply, and is left waiting. -/
theorem getrply_blocks_on_nothing :
    ∃ σ τ, Reachable anyStep σ ∧
      Received σ (receive 0 (shortBytes 0 ++ longBytes TPGETANY) 0) 0 .svrgetrply
        (shortBytes 0 ++ longBytes TPGETANY) ∧
      (σ.client 0).map Client.outstanding = some [] ∧
      step σ (receive 0 (shortBytes 0 ++ longBytes TPGETANY) 0) = .ok τ ∧
      τ.sent 0 = σ.sent 0 ∧
      (τ.client 0).map (fun x => (x.handler, x.wait4)) = some (none, some .any) := by
  let request := shortBytes 0 ++ longBytes TPGETANY
  obtain ⟨σ, -, reach, seen⟩ := reachable_of_outcome [connect, receive 0 [TPTGRPLY] 0]
    (fun σ => decide (received σ (receive 0 request 0) = some (0, .svrgetrply, request) ∧
      (σ.client 0).map Client.outstanding = some [] ∧
      (step σ (receive 0 request 0)).toOption.any (fun τ => decide (τ.sent 0 = σ.sent 0 ∧
        (τ.client 0).map (fun x => (x.handler, x.wait4)) = some (none, some .any))) = true)) true
    (by decide +kernel)
  obtain ⟨received, nothing, after⟩ := of_decide_eq_true seen
  obtain ⟨τ, done, after⟩ := step_of_any after
  obtain ⟨silent, waiting⟩ := of_decide_eq_true after
  exact ⟨σ, τ, reach, received, nothing, done, silent, waiting⟩

end Switchboard
end Xatmi
