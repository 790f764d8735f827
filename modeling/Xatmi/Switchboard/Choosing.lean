import Xatmi.Switchboard.Faults
import Xatmi.Switchboard.Scenario

/-!
# Which request a worker gets

`svrservice` walks over the advertisements of the worker with `find_earliest`, which keeps the
advertisement whose first waiting transaction has the later arrival. So it ends with the latest of
the first transactions; what the name promises holds only when they all arrived at the same time.
-/

namespace Xatmi
namespace Switchboard

open Program

/-! ## Arrival times -/

namespace Timeval

theorem not_before_self (a : Timeval) : a.before a = false := by
  simp [before]

theorem not_before_trans {a b c : Timeval} (first : a.before b = false)
    (second : b.before c = false) :
    a.before c = false := by
  simp only [before] at *
  grind

theorem eq_of_not_before {a b : Timeval} (left : a.before b = false) (right : b.before a = false) :
    a = b := by
  obtain ⟨sec, usec⟩ := a
  obtain ⟨sec', usec'⟩ := b
  simp only [before, mk.injEq] at *
  grind

theorem not_before_of_before {a b : Timeval} (sooner : a.before b = true) : b.before a = false := by
  simp only [before] at *
  grind

end Timeval

/-! ## The choice -/

variable {φ : Phase} {σ : State}

/-- The first transaction that waits for the service of advertisement `a` did not arrive before that
of `p`. -/
def State.NotSooner (σ : State) (a p : AdvertId) : Prop :=
  ∀ t tr u ur, σ.First a t → σ.tran t = some tr → σ.First p u → σ.tran u = some ur →
    tr.arrival.before ur.arrival = false

theorem State.First.unique {a : AdvertId} {t u : TranId} (first : σ.First a t)
    (second : σ.First a u) :
    t = u := by
  obtain ⟨v, svc, advert, _, front⟩ := first
  obtain ⟨w, svc', advert', _, front'⟩ := second
  obtain rfl := Option.some.inj (advert.symm.trans advert')
  exact Node.tran.inj (front.symm.trans front')

theorem State.NotSooner.refl (a : AdvertId) : σ.NotSooner a a := by
  intro t tr u ur first found second found'
  obtain rfl := first.unique second
  obtain rfl := Option.some.inj (found.symm.trans found')
  exact Timeval.not_before_self _

/-- Some transaction is first in the queue behind advertisement `a`. -/
def State.Ready (σ : State) (a : AdvertId) : Prop :=
  ∃ t tr, σ.First a t ∧ σ.tran t = some tr

theorem State.NotSooner.trans {a b p : AdvertId} (ready : σ.Ready b) (left : σ.NotSooner a b)
    (right : σ.NotSooner b p) : σ.NotSooner a p := by
  obtain ⟨t, tr, first, found⟩ := ready
  intro s sr u ur firstA foundA firstP foundP
  exact Timeval.not_before_trans (left s sr t tr firstA foundA first found)
    (right t tr u ur first found firstP foundP)

theorem State.Visits.notSooner {earliest : Option AdvertId} {p q : AdvertId}
    (visits : σ.Visits earliest p (some q)) :
    (∀ a, earliest = some a → σ.NotSooner q a) ∧ (σ.Waits p → σ.NotSooner q p) := by
  obtain ⟨_, ⟨_, prefers⟩ | ⟨idle, same⟩⟩ := visits
  · cases earliest with
    | none =>
        obtain rfl := Option.some.inj prefers
        exact ⟨by simp, fun _ => .refl q⟩
    | some a =>
        obtain ⟨t, t', tr, tr', first, found, second, found', same⟩ := prefers
        have compare : ∀ {b b' u u' ur ur'}, σ.First b u → σ.tran u = some ur → σ.First b' u' →
            σ.tran u' = some ur' → ur.arrival.before ur'.arrival = false → σ.NotSooner b b' := by
          intro b b' u u' ur ur' firstB foundB firstB' foundB' order s sr s' sr' firstS
            foundS firstS' foundS'
          obtain rfl := firstB.unique firstS
          obtain rfl := firstB'.unique firstS'
          obtain rfl := Option.some.inj (foundB.symm.trans foundS)
          obtain rfl := Option.some.inj (foundB'.symm.trans foundS')
          exact order
        split at same
        · next later =>
            obtain rfl := Option.some.inj same
            refine ⟨fun a' same' => ?_, fun _ => .refl q⟩
            obtain rfl := Option.some.inj same'
            exact compare second found' first found (Timeval.not_before_of_before later)
        · next notLater =>
            obtain rfl := Option.some.inj same
            refine ⟨fun a' same' => ?_, fun _ => ?_⟩
            · obtain rfl := Option.some.inj same'
              exact .refl q
            · exact compare first found second found' (by simpa using notLater)
  · refine ⟨fun a same' => ?_, fun work => absurd work idle⟩
    obtain rfl := Option.some.inj (same.trans same')
    exact .refl q

theorem State.Chooses.notSooner {earliest : Option AdvertId} {adverts : List AdvertId}
    {q : AdvertId} {choice : Option AdvertId} (chooses : σ.Chooses earliest adverts choice)
    (chosen : choice = some q) (work : ∀ a, earliest = some a → σ.Waits a)
    (ready : ∀ a, σ.Waits a → σ.Ready a) :
    (∀ a, earliest = some a → σ.NotSooner q a) ∧ ∀ p ∈ adverts, σ.Waits p → σ.NotSooner q p := by
  induction chooses with
  | nil earliest =>
      refine ⟨fun a same => ?_, by simp⟩
      obtain rfl := Option.some.inj (chosen.symm.trans same)
      exact .refl q
  | @cons earliest middle choice p adverts visits _ ih =>
      have waits : ∀ m, middle = some m → σ.Waits m := by
        intro m same
        rcases State.Chooses.waits (.cons visits (.nil _)) same with kept | ⟨_, found⟩
        · exact work m kept
        · exact found
      obtain ⟨soFar, rest⟩ := ih chosen waits
      cases middle with
      | none =>
          have nothing := State.Chooses.idle (.cons visits (.nil _)) rfl
          refine ⟨by simp [nothing.1], fun p' member => ?_⟩
          rcases List.mem_cons.mp member with rfl | later
          · exact fun waiting => absurd waiting (nothing.2 p' List.mem_cons_self)
          · exact rest p' later
      | some m =>
          obtain ⟨kept, visited⟩ := visits.notSooner
          have after := soFar m rfl
          have ready' := ready m (waits m rfl)
          refine ⟨fun a same => after.trans ready' (kept a same), fun p' member waiting => ?_⟩
          rcases List.mem_cons.mp member with rfl | later
          · exact after.trans ready' (visited waiting)
          · exact rest p' later waiting

theorem State.Chooses.total {adverts : List AdvertId}
    (current : ∀ p ∈ adverts, ∃ v svc, σ.advert p = some v ∧ σ.service v.svc = some svc)
    {earliest : Option AdvertId}
    (work : ∀ a, earliest = some a → σ.Waits a) (ready : ∀ a, σ.Waits a → σ.Ready a) :
    ∃ choice, σ.Chooses earliest adverts choice := by
  induction adverts generalizing earliest with
  | nil => exact ⟨earliest, .nil _⟩
  | cons p adverts ih =>
      have there := current p List.mem_cons_self
      obtain ⟨middle, visits⟩ : ∃ middle, σ.Visits earliest p middle := by
        by_cases waiting : σ.Waits p
        · obtain ⟨t', tr', second, found'⟩ := ready p waiting
          cases earliest with
          | none => exact ⟨some p, there, .inl ⟨waiting, rfl⟩⟩
          | some q =>
              obtain ⟨t, tr, first, found⟩ := ready q (work q rfl)
              exact ⟨_, there, .inl ⟨waiting, t, t', tr, tr', first, found, second, found', rfl⟩⟩
        · exact ⟨earliest, there, .inr ⟨waiting, rfl⟩⟩
      have waits : ∀ m, middle = some m → σ.Waits m := by
        intro m same
        rcases State.Chooses.waits (.cons visits (.nil _)) same with kept | ⟨_, found⟩
        · exact work m kept
        · exact found
      obtain ⟨choice, rest⟩ :=
        ih (fun p' member => current p' (List.mem_cons_of_mem p member)) waits
      exact ⟨choice, .cons visits rest⟩

/-! ## `svrservice` in undamaged queues -/

/-- The first entry of a queue of transactions is a current transaction of the service. -/
theorem Rings.ready (inv : Rings φ σ) {a : AdvertId} (waits : σ.Waits a) :
    ∃ v t tr, σ.advert a = some v ∧ σ.First a t ∧ σ.tran t = some tr ∧ tr.svc = v.svc := by
  obtain ⟨v, advert, ⟨svc, service, flag⟩, nonempty⟩ := waits
  obtain ⟨t, front⟩ := inv.first_tran service flag nonempty
  obtain ⟨at_, _⟩ := inv.first_entry service nonempty
  rw [front] at at_
  obtain ⟨tr, found, same⟩ := Option.map_eq_some_iff.mp at_
  exact ⟨v, t, tr, advert, ⟨v, svc, advert, service, front⟩, found, Node.head.inj same⟩

/-- The memory in which `svrservice` is called for a `TPTWORK`. -/
def State.atWork (σ : State) (c : ClientId) (b : BufId) (filled : Bytes) : State :=
  (((σ.begin c .command b filled).freeBuf b).allocBuf []).observe (.handled c .svrservice [])

theorem sameTables_atWork (c : ClientId) (b : BufId) (filled : Bytes) :
    SameTables σ (σ.atWork c b filled) :=
  ⟨rfl, rfl, rfl, rfl, rfl, rfl, fun _ => change_map fun _ => rfl⟩

theorem step_of_workByte {e : Event} {c : ClientId} {filled : Bytes}
    (received : Received σ e c .command filled) (work : filled.getD 0 0 = TPTWORK) :
    ∃ x b, σ.client c = some x ∧ x.input = some b ∧ x.handler = some .command ∧
      step σ e = (svrservice e.env c σ.next (σ.atWork c b filled)).map Prod.snd := by
  obtain ⟨x, b, contents, live, into, reading, room, length, nonempty, called⟩ :=
    step_of_received received
  refine ⟨x, b, live, into, reading, ?_⟩
  let y : Client := { x with handler := none, input := none, used := 0 }
  have held : (σ.begin c .command b filled).buf b = some filled := if_pos rfl
  have known : commands[(filled.getD 0 0).toNat]? = some (.svrservice, 0) := by rw [work]; rfl
  have begun : (((σ.begin c .command b filled).freeBuf b).allocBuf []).client c = some y :=
    change_eq_some_iff.mpr ⟨x, live, (if_pos rfl).symm⟩
  have resized : tprealloc b ((0 : Nat) : Int) (σ.begin c .command b filled) =
      .ok (some σ.next, ((σ.begin c .command b filled).freeBuf b).allocBuf []) :=
    tprealloc_ok_iff.mpr ⟨filled, held, .inr ⟨Int.le_refl 0, rfl, by simp [resize]⟩⟩
  have runs : command e.env c b (σ.begin c .command b filled) =
      svrservice e.env c σ.next (σ.atWork c b filled) := by
    unfold command
    rw [bind_of_ok (readBuf_ok_iff.mpr ⟨held, rfl⟩)]
    simp only [known]
    rw [bind_of_ok resized]
    change svriowait c σ.next .svrservice (svrservice e.env) _ = _
    unfold svriowait
    rw [bind_of_ok (readClient_ok_iff.mpr ⟨begun, rfl⟩), if_neg (by simp [y]),
      bind_of_ok (readBuf_ok_iff.mpr ⟨if_pos rfl, rfl⟩), if_neg (by simp)]
    exact seq_of_ok (observe_ok_iff.mpr rfl)
  rw [called]
  exact congrArg (Except.map Prod.snd) runs

theorem step_of_work {e : Event} {c : ClientId} (asks : Commands σ e c TPTWORK) :
    ∃ x b filled, σ.client c = some x ∧ x.input = some b ∧ x.handler = some .command ∧
      step σ e = (svrservice e.env c σ.next (σ.atWork c b filled)).map Prod.snd := by
  obtain ⟨filled, received, work⟩ := asks
  obtain ⟨x, b, live, into, reading, called⟩ := step_of_workByte received work
  exact ⟨x, b, filled, live, into, reading, called⟩

theorem svrservice_of_chooses {env : Env} {c : ClientId} {b : BufId} {contents : Bytes} {x : Client}
    {a : AdvertId} {t : TranId} {τ : State} (room : σ.buf b = some contents)
    (live : σ.client c = some x) (chooses : σ.Chooses none (env.walk x.adverts) (some a))
    (first : σ.First a t) (sends : sendToServer env a t (σ.freeBuf b) = .ok (⟨⟩, τ)) :
    svrservice env c b σ = .ok (⟨⟩, τ) := by
  have same := (SameTables.refl σ).freeBuf b
  have live' : (σ.freeBuf b).client c = some x := live
  unfold svrservice
  rw [seq_of_ok (tpfree_ok_iff.mpr ⟨⟨contents, room⟩, rfl⟩),
    bind_of_ok (readClient_ok_iff.mpr ⟨live', rfl⟩),
    bind_of_ok (foldlM_findEarliest_ok_iff.mpr ⟨same.chooses_iff.mpr chooses, rfl⟩)]
  change (firstTran a >>= _) _ = _
  rw [bind_of_ok (firstTran_ok_iff.mpr ⟨same.first_iff.mpr first, rfl⟩)]
  exact sends

/-- Transaction `t` is first in the queue of the service that client `c` advertises with `a`. -/
def State.Heads (σ : State) (c : ClientId) (a : AdvertId) (t : TranId) : Prop :=
  ∃ x, σ.client c = some x ∧ a ∈ x.adverts ∧ σ.Waits a ∧ σ.First a t

/-- Client `c` has been handed transaction `t` through its advertisement `a`. -/
structure HandedOut (σ τ : State) (c : ClientId) (a : AdvertId) (t : TranId) (tr : Transaction) :
    Prop where
  worker : ∃ y, τ.client c = some y ∧ y.wait4 = some (.tran t)
  executor : τ.tran t = some { tr with executor := some a }
  log : τ.log.head? = some (.dispatched a c t)
  sent : ∃ v svc data, σ.advert a = some v ∧ σ.service tr.svc = some svc ∧
    σ.buf tr.data = some data ∧ τ.sent c = σ.sent c ++ workFrame v tr svc.svcname data

theorem handedOut_assign {v : Advert} {tr : Transaction} {x : Client} (a : AdvertId) (t : TranId)
    (frame : Bytes) (found : σ.tran t = some tr) (worker : σ.client v.client = some x) :
    (∃ y, (σ.assign a v t frame).client v.client = some y ∧ y.wait4 = some (.tran t)) ∧
      (σ.assign a v t frame).tran t = some { tr with executor := some a } ∧
      (σ.assign a v t frame).log.head? = some (.dispatched a v.client t) ∧
      (σ.assign a v t frame).sent v.client = σ.sent v.client ++ frame := by
  simp [State.assign, State.nextCommand, State.arm, State.allocBuf, State.write, State.observe,
    State.mapTran, State.mapClient, change, found, worker]

/-- In undamaged queues a `TPTWORK` is answered with a transaction if one is waiting; the
transaction is first in the queue of a service of the worker, and no other first transaction arrived
later. -/
theorem work_answered_of_rings {e : Event} {c : ClientId} (inv : Inv ⟨{}, σ⟩) (rings : Rings {} σ)
    (asks : Commands σ e c TPTWORK)
    (work : ∃ x a, σ.client c = some x ∧ a ∈ x.adverts ∧ σ.Waits a) :
    ∃ τ a t tr, step σ e = .ok τ ∧ σ.Heads c a t ∧ σ.tran t = some tr ∧ HandedOut σ τ c a t tr ∧
      ∀ a' t' tr', σ.Heads c a' t' → σ.tran t' = some tr' →
        tr.arrival.before tr'.arrival = false := by
  obtain ⟨x, b, filled, live, into, reading, called⟩ := step_of_work asks
  obtain ⟨_, a₀, live', member₀, waits₀⟩ := work
  obtain rfl := Option.some.inj (live.symm.trans live')
  have perm := e.env.walk_perm x.adverts
  have ready : ∀ a, σ.Waits a → σ.Ready a := by
    intro a waits
    obtain ⟨_, t, tr, _, first, found, _⟩ := rings.ready waits
    exact ⟨t, tr, first, found⟩
  have current : ∀ p ∈ e.env.walk x.adverts, ∃ v svc, σ.advert p = some v ∧
      σ.service v.svc = some svc := by
    intro p member
    obtain ⟨_, v, advert, _, svc, service⟩ := inv.registry.tree c x p live (perm.mem_iff.mp member)
    exact ⟨v, svc, advert, service⟩
  obtain ⟨choice, chooses⟩ : ∃ choice, σ.Chooses none (e.env.walk x.adverts) choice :=
    State.Chooses.total current (by simp) ready
  cases choice with
  | none => exact absurd waits₀ ((chooses.idle rfl).2 a₀ (perm.mem_iff.mpr member₀))
  | some a =>
      obtain impossible | ⟨inside, waits⟩ := chooses.waits rfl
      · cases impossible
      have member := perm.mem_iff.mp inside
      obtain ⟨v, t, tr, advert, first, found, sameService⟩ := rings.ready waits
      obtain ⟨_, w, advert', owner, svc, service⟩ := inv.registry.tree c x a live member
      obtain rfl := Option.some.inj (advert.symm.trans advert')
      obtain ⟨data, stored⟩ := inv.buffers.data t tr found
      have private_ := (inv.buffers.reading c x b live ⟨into, .command, reading, rfl⟩).1
      have old := inv.fresh.buf _ data stored
      let y : Client := { x with handler := none, input := none, used := 0 }
      let μ := (σ.atWork c b filled).freeBuf σ.next
      have same : SameTables σ μ := (sameTables_atWork c b filled).freeBuf _
      have begun : (σ.atWork c b filled).client c = some y :=
        change_eq_some_iff.mpr ⟨x, live, (if_pos rfl).symm⟩
      have worker : μ.client v.client = some y := by rw [owner]; exact begun
      have stored' : μ.buf tr.data = some data := by
        have apart : tr.data ≠ b := private_.apart t tr found
        have apart' : tr.data ≠ σ.next := Nat.ne_of_lt old
        calc
          μ.buf tr.data = (σ.atWork c b filled).buf tr.data := if_neg apart'
          _ = ((σ.begin c .command b filled).freeBuf b).buf tr.data := if_neg apart'
          _ = (σ.begin c .command b filled).buf tr.data := if_neg apart
          _ = σ.buf tr.data := if_neg apart
          _ = some data := stored
      have rings' : Rings {} μ := rings.congr rfl rfl rfl (fun _ => rfl) rfl
      have dismissable : μ.Dismissable (e.env.walk y.adverts) := by
        refine rings'.dismissable fun p member => ?_
        obtain ⟨w, _, advert', _⟩ := current p member
        exact ⟨w, advert'⟩
      have service' : μ.service tr.svc = some svc := by rw [sameService]; exact service
      have sends : sendToServer e.env a t μ =
          .ok (⟨⟩, (μ.dismiss (e.env.walk y.adverts)).assign a v t
            (workFrame v tr svc.svcname data)) :=
        sendToServer_ok_iff.mpr ⟨v, y, tr, svc, data, advert, worker, ⟨rfl, rfl, rfl⟩, dismissable,
          found, service', stored', rfl⟩
      have runs := svrservice_of_chooses (if_pos rfl) begun
        ((sameTables_atWork c b filled).chooses_iff.mpr chooses)
        ((sameTables_atWork c b filled).first_iff.mpr first) sends
      refine ⟨_, a, t, tr, by rw [called, runs]; rfl, ⟨x, live, member, waits, first⟩,
        found, ?_, ?_⟩
      · subst owner
        have found' : (μ.dismiss (e.env.walk y.adverts)).tran t = some tr := found
        have worker' : (μ.dismiss (e.env.walk y.adverts)).client v.client = some y := worker
        have handed := handedOut_assign a t (workFrame v tr svc.svcname data) found' worker'
        refine ⟨handed.1, handed.2.1, handed.2.2.1, v, svc, data, advert, ?_, stored, handed.2.2.2⟩
        rw [sameService]
        exact service
      · intro a' t' tr' heads found'
        obtain ⟨x', live', member', waits', first'⟩ := heads
        obtain rfl := Option.some.inj (live.symm.trans live')
        exact (chooses.notSooner rfl (by simp) ready).2 a' (perm.mem_iff.mpr member') waits'
          t tr t' tr' first found first' found'

/-- In undamaged queues a worker for which transactions are waiting is given the first transaction
of one of its services, and this is the earliest of them exactly if they all arrived at the same
time. -/
theorem worker_gets_earliest {e : Event} {c : ClientId} (reach : Reachable anyStep σ)
    (rings : Rings {} σ) (asks : Commands σ e c TPTWORK)
    (work : ∃ x a, σ.client c = some x ∧ a ∈ x.adverts ∧ σ.Waits a) :
    ∃ τ a t tr, step σ e = .ok τ ∧ σ.Heads c a t ∧ σ.tran t = some tr ∧ HandedOut σ τ c a t tr ∧
      ((∀ a' t' tr', σ.Heads c a' t' → σ.tran t' = some tr' →
          tr'.arrival.before tr.arrival = false) ↔
        ∀ a t tr a' t' tr', σ.Heads c a t → σ.tran t = some tr → σ.Heads c a' t' →
          σ.tran t' = some tr' → tr.arrival = tr'.arrival) := by
  obtain ⟨τ, a, t, tr, done, heads, found, handed, latest⟩ :=
    work_answered_of_rings (inv_of_reachable reach) rings asks work
  refine ⟨τ, a, t, tr, done, heads, found, handed, fun earliest => ?_, fun together => ?_⟩
  · have level : ∀ a' t' tr', σ.Heads c a' t' → σ.tran t' = some tr' → tr'.arrival = tr.arrival :=
      fun a' t' tr' heads' found' => Timeval.eq_of_not_before
        (earliest a' t' tr' heads' found') (latest a' t' tr' heads' found')
    intro a₁ t₁ tr₁ a₂ t₂ tr₂ heads₁ found₁ heads₂ found₂
    rw [level a₁ t₁ tr₁ heads₁ found₁, level a₂ t₂ tr₂ heads₂ found₂]
  · intro a' t' tr' heads' found'
    rw [together a t tr a' t' tr' heads found heads' found']
    exact Timeval.not_before_self _

theorem heads_of_view {c : ClientId} {a : AdvertId} {s : ServiceId} {t : TranId} {x : Client}
    {v : Advert} {svc : Service} (live : σ.client c = some x) (member : a ∈ x.adverts)
    (advert : σ.advert a = some v) (service : v.svc = s) (found : σ.service s = some svc)
    (flag : svc.waitContainsTransactions = true) (nonempty : σ.links.p1 (.head s) ≠ .head s)
    (front : σ.links.p2 (.head s) = .tran t) :
    σ.Heads c a t := by
  subst service
  exact ⟨x, live, member, ⟨v, advert, ⟨svc, found, flag⟩, nonempty⟩, v, svc, advert, found, front⟩

namespace Scenario

/-- `TPTCALL` without data at second `sec`. -/
def callAt (sec : Nat) (c : ClientId) (letter : Byte) (cd : BitVec 16) : List Event :=
  [receive c [TPTCALL] 0,
    ⟨.plain sec cd, .ready c (some (svcname letter ++ longBytes 0 ++ longBytes 0))⟩]

/-- Client 0 advertises `A` and `B`, and client 2 calls the one at second `sec` and the other at
second `sec'`. -/
def callBoth (sec sec' : Nat) : List Event :=
  [connect, connect] ++ advertise 0 65 ++ advertise 0 66 ++ callAt sec 2 65 9 ++ callAt sec' 2 66 10

/-- Transactions 14 and 18 are first in the queues behind the advertisements of client 0, and client
0 asks for work. -/
def showsBoth (sec sec' : Nat) (σ : State) : Bool :=
  decide (received σ (receive 0 [TPTWORK] 0) = some (0, .command, [TPTWORK]) ∧
    (σ.client 0).map Client.adverts = some [6, 10] ∧
    ((σ.advert 6).map Advert.svc = some 5 ∧
      (σ.service 5).map Service.waitContainsTransactions = some true ∧
      σ.links.p1 (.head 5) ≠ .head 5 ∧ σ.links.p2 (.head 5) = .tran 14) ∧
    ((σ.advert 10).map Advert.svc = some 9 ∧
      (σ.service 9).map Service.waitContainsTransactions = some true ∧
      σ.links.p1 (.head 9) ≠ .head 9 ∧ σ.links.p2 (.head 9) = .tran 18) ∧
    (σ.tran 14).map Transaction.arrival = some ⟨sec, 0⟩ ∧
      (σ.tran 18).map Transaction.arrival = some ⟨sec', 0⟩)

theorem heads_of_shows {sec sec' : Nat} (shown : showsBoth sec sec' σ = true) :
    Commands σ (receive 0 [TPTWORK] 0) 0 TPTWORK ∧ (σ.Heads 0 6 14 ∧ σ.Heads 0 10 18) ∧
      (σ.tran 14).map Transaction.arrival = some ⟨sec, 0⟩ ∧
      (σ.tran 18).map Transaction.arrival = some ⟨sec', 0⟩ ∧
      ∀ a t, σ.Heads 0 a t → t = 14 ∨ t = 18 := by
  obtain ⟨received, tree, ⟨advertA, serviceA, nonemptyA, frontA⟩,
    ⟨advertB, serviceB, nonemptyB, frontB⟩, arrivals⟩ := of_decide_eq_true shown
  obtain ⟨x, live, tree⟩ := Option.map_eq_some_iff.mp tree
  obtain ⟨v, advertA, svcA⟩ := Option.map_eq_some_iff.mp advertA
  obtain ⟨w, advertB, svcB⟩ := Option.map_eq_some_iff.mp advertB
  obtain ⟨svc, serviceA, flagA⟩ := Option.map_eq_some_iff.mp serviceA
  obtain ⟨svc', serviceB, flagB⟩ := Option.map_eq_some_iff.mp serviceB
  have headsA : σ.Heads 0 6 14 :=
    heads_of_view live (by simp [tree]) advertA svcA serviceA flagA nonemptyA frontA
  have headsB : σ.Heads 0 10 18 :=
    heads_of_view live (by simp [tree]) advertB svcB serviceB flagB nonemptyB frontB
  refine ⟨⟨[TPTWORK], received, rfl⟩, ⟨headsA, headsB⟩, arrivals.1, arrivals.2, ?_⟩
  rintro a t ⟨y, live', member, _, first⟩
  obtain rfl := Option.some.inj (live.symm.trans live')
  simp only [tree, List.mem_cons, List.not_mem_nil, or_false] at member
  obtain ⟨_, _, _, _, firstA⟩ := headsA
  obtain ⟨_, _, _, _, firstB⟩ := headsB
  rcases member with rfl | rfl
  · exact .inl (first.unique firstA)
  · exact .inr (first.unique firstB)

end Scenario

open Scenario in
theorem worker_gets_earliest_together :
    ∃ σ τ a t tr, Reachable anyStep σ ∧ σ.Heads 0 6 14 ∧ σ.Heads 0 10 18 ∧
      step σ (receive 0 [TPTWORK] 0) = .ok τ ∧ σ.Heads 0 a t ∧ σ.tran t = some tr ∧
      HandedOut σ τ 0 a t tr ∧
      ∀ a' t' tr', σ.Heads 0 a' t' → σ.tran t' = some tr' →
        tr'.arrival.before tr.arrival = false := by
  obtain ⟨σ, reach, seen⟩ := reachable_of_permitted (callBoth 1 1) (showsBoth 1 1) true
    (show permitted PicksNew _ _ = true by decide +kernel) (by decide +kernel)
  obtain ⟨asks, ⟨headsA, headsB⟩, atA, atB, only⟩ := heads_of_shows seen
  have level : ∀ a t tr, σ.Heads 0 a t → σ.tran t = some tr → tr.arrival = ⟨1, 0⟩ := by
    intro a t tr heads found
    rcases only a t heads with rfl | rfl
    · rw [found] at atA
      exact Option.some.inj atA
    · rw [found] at atB
      exact Option.some.inj atB
  have work : ∃ x a, σ.client 0 = some x ∧ a ∈ x.adverts ∧ σ.Waits a := by
    obtain ⟨x, live, member, waits, _⟩ := headsA
    exact ⟨x, 6, live, member, waits⟩
  obtain ⟨τ, a, t, tr, done, heads, found, handed, earliest⟩ := worker_gets_earliest
    (reach.mono fun _ _ _ => trivial) (sound_of_reachable reach).rings asks work
  refine ⟨σ, τ, a, t, tr, reach.mono fun _ _ _ => trivial, headsA, headsB, done, heads,
    found, handed, earliest.mpr fun a₁ t₁ tr₁ a₂ t₂ tr₂ heads₁ found₁ heads₂ found₂ => ?_⟩
  rw [level a₁ t₁ tr₁ heads₁ found₁, level a₂ t₂ tr₂ heads₂ found₂]

open Scenario in
/-- Client 2 calls A at second 1 and B at second 2; worker 0, which offers both, is given the call
of B. -/
theorem worker_gets_latest :
    ∃ σ τ, Reachable anyStep σ ∧ Commands σ (receive 0 [TPTWORK] 0) 0 TPTWORK ∧
      step σ (receive 0 [TPTWORK] 0) = .ok τ ∧ τ.log.head? = some (.dispatched 10 0 18) ∧
      σ.Heads 0 6 14 ∧ σ.Heads 0 10 18 ∧ (σ.tran 14).map Transaction.arrival = some ⟨1, 0⟩ ∧
      (σ.tran 18).map Transaction.arrival = some ⟨2, 0⟩ := by
  obtain ⟨σ, -, reach, seen⟩ := reachable_of_outcome (callBoth 1 2)
    (fun σ => showsBoth 1 2 σ && (step σ (receive 0 [TPTWORK] 0)).toOption.any
      fun τ : State => decide (τ.log.head? = some (.dispatched 10 0 18))) true (by decide +kernel)
  obtain ⟨shown, steps⟩ := (Bool.and_eq_true _ _).mp seen
  obtain ⟨asks, ⟨headsA, headsB⟩, atA, atB, _⟩ := heads_of_shows shown
  obtain ⟨τ, done, log⟩ := step_of_any steps
  exact ⟨σ, τ, reach, asks, done, of_decide_eq_true log, headsA, headsB, atA, atB⟩

end Switchboard
end Xatmi
