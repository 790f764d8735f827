import Xatmi.Switchboard.Faults
import Xatmi.Switchboard.Scenario

/-!
# Modes of a client

A client is being read from, waits for work, or is blocked in `tpgetrply`. As long as no transaction
is dispatched twice, these exclude each other, also in the middle of a step in which the switchboard
turns to another client than the one whose bytes it is handling.
-/

namespace Xatmi
namespace Switchboard

open Program Intrusive

/-- Client `c` is blocked in `tpgetrply`: its `TPTGRPLY` was not answered, and nothing has been
written to it since. -/
inductive Blocked (allowed : State → Event → Prop) (c : ClientId) : State → Prop
  | asks {before after : State} {e : Event} {filled : Bytes} : Reachable allowed before →
      allowed before e → Received before e c .svrgetrply filled → step before e = .ok after →
      after.sent c = before.sent c → Blocked allowed c after
  | stays {before after : State} {e : Event} : Blocked allowed c before → allowed before e →
      step before e = .ok after → c ∈ after.clients → after.sent c = before.sent c →
      Blocked allowed c after

theorem Blocked.reachable {allowed : State → Event → Prop} {c : ClientId} {σ : State}
    (blocked : Blocked allowed c σ) : Reachable allowed σ := by
  induction blocked with
  | asks reach ok _ done => exact reach.next ok done
  | stays _ ok done _ _ ih => exact ih.next ok done

/-! ## Clients nobody turns to -/

/-- Nothing is read from client `c`, it is on no wait queue, and `said` is all it has been sent. -/
structure Still (c : ClientId) (said : Bytes) (φ : Phase) (σ : State) : Prop where
  old : c < σ.next
  stopped : φ.run ≠ some c
  away : ¬Waiting φ σ c
  idle : ∀ x, σ.client c = some x → x.Idle
  silent : σ.sent c = said

namespace Still

variable {c : ClientId} {said : Bytes} {φ φ' : Phase} {σ τ : State} {σ₀ : State} {e : Event}

/-- Effects on other clients. -/
theorem keep (still : Still c said φ σ) (old : σ.next ≤ τ.next) (stopped : φ'.run ≠ some c)
    (away : ¬Waiting φ' τ c)
    (client : ∀ y, τ.client c = some y → ∃ x, σ.client c = some x ∧ y.intake = x.intake)
    (sent : τ.sent c = σ.sent c) : Still c said φ' τ := by
  refine ⟨Nat.lt_of_lt_of_le still.old old, stopped, away, ?_, sent.trans still.silent⟩
  intro y live
  obtain ⟨x, live', intake⟩ := client y live
  simp only [Client.intake, Prod.mk.injEq] at intake
  rw [Client.Idle, intake.1, intake.2.1, intake.2.2]
  exact still.idle x live'

theorem intake_of_change {k : ClientId} {update : Client → Client}
    (other : k ≠ c ∨ ∀ x, (update x).intake = x.intake) (y : Client)
    (live : change σ.client k update c = some y) :
    ∃ x, σ.client c = some x ∧ y.intake = x.intake := by
  obtain ⟨x, live', rfl⟩ := change_eq_some_iff.mp live
  refine ⟨x, live', ?_⟩
  split
  · rename_i same
    exact other.elim (fun different => absurd same.symm different) fun keeps => keeps x
  · rfl

theorem intake_of_assign {a : AdvertId} {v : Advert} {t : TranId} {frame : Bytes}
    (other : v.client ≠ c) (y : Client) (live : (σ.assign a v t frame).client c = some y) :
    ∃ x, σ.client c = some x ∧ y.intake = x.intake := by
  obtain ⟨z, armed, rfl⟩ := change_eq_some_iff.mp live
  obtain ⟨x, live', rfl⟩ := change_eq_some_iff.mp armed
  exact ⟨x, live', by rw [if_neg other.symm, if_neg other.symm]⟩

theorem intake_of_reply {t : TranId} {tr : Transaction} {contents : Bytes} (other : tr.client ≠ c)
    (y : Client) (live : (σ.reply t tr contents).client c = some y) :
    ∃ x, σ.client c = some x ∧ y.intake = x.intake := by
  obtain ⟨z, answered, rfl⟩ := Option.map_eq_some_iff.mp live
  obtain ⟨w, armed, rfl⟩ := change_eq_some_iff.mp answered
  obtain ⟨x, live', rfl⟩ := change_eq_some_iff.mp armed
  refine ⟨x, live', ?_⟩
  rw [if_neg other.symm, if_neg other.symm]
  rfl

/-- Such a client is left alone, or is sent the reply to a transaction of its. -/
theorem effect (still : Still c said φ σ) (sound : Sound ⟨φ, σ⟩) (before : Parking {} σ₀)
    (eff : Effect σ₀ e ⟨φ, σ⟩ ⟨φ', τ⟩) :
    Still c said φ' τ ∨ ∃ t tr contents, σ.tran t = some tr ∧ σ.buf tr.data = some contents ∧
      (∃ x, σ.client c = some x) ∧ tr.client = c ∧ τ = σ.reply t tr contents := by
  have all : Inv ⟨φ, σ⟩ := sound.all
  have rings : Rings φ σ := sound.parking.rings
  have older : σ.next ≤ τ.next := eff.next_le
  have away : (φ'.parked = some c → φ.parked = some c) → ¬Waiting φ' τ c :=
    fun parked waits => still.away (rings.waiting_of_effect before.unlinked all eff parked waits)
  have running : ∀ {k}, φ.run = some k → k ≠ c := by
    rintro k run rfl
    exact still.stopped run
  have reading : ∀ {k x handler}, σ.client k = some x → x.handler = some handler → k ≠ c := by
    rintro k x handler live reads rfl
    simp [(still.idle x live).1] at reads
  have same : ∀ y, σ.client c = some y → ∃ x, σ.client c = some x ∧ y.intake = x.intake :=
    fun y live => ⟨y, live, rfl⟩
  cases eff with
  | call | release | resize | enqueue | park | setReturn | spare | found | orphan | dropService
  | dropAdvert => exact .inl (still.keep older still.stopped (away id) same rfl)
  | requeue | finish | fail | submit | offer | detach =>
      exact .inl (still.keep older still.stopped (away id) (intake_of_change (.inr fun _ => rfl))
        rfl)
  | connect =>
      refine .inl (still.keep older still.stopped (away id) (fun y live => ?_) rfl)
      obtain ⟨x, live', rfl⟩ := change_eq_some_iff.mp live
      rcases put_eq_some_iff.mp live' with ⟨rfl, _⟩ | ⟨different, live'⟩
      · exact absurd still.old (Nat.lt_irrefl _)
      · exact ⟨x, live', by rw [if_neg different]⟩
  | fill live _ reads =>
      exact .inl (still.keep older still.stopped (away id)
        (intake_of_change (.inl (reading live reads))) rfl)
  | begin _ live _ reads =>
      refine .inl (still.keep older ?_ (away (by simp [Phase.called]))
        (intake_of_change (.inl (reading live reads))) rfl)
      exact fun run => reading live reads (Option.some.inj run)
  | write _ run =>
      exact .inl (still.keep older still.stopped (away id) same (if_neg (running run).symm))
  | armHeader run | armUpload run | armReturn run | block run =>
      exact .inl (still.keep older (by simp) (away id) (intake_of_change (.inl (running run))) rfl)
  | next run =>
      exact .inl (still.keep older still.stopped (away id) (intake_of_change (.inl (running run)))
        rfl)
  | @assignUp _ _ a v x t tr svc _ _ _ _ offered workers nonempty first advert =>
      have other : v.client ≠ c := by
        rintro rfl
        obtain ⟨_, linked⟩ := sound.rings.first_entry offered nonempty
        rw [first] at linked
        exact still.away (.inl ⟨a, v, advert, rfl, linked⟩)
      exact .inl (still.keep older still.stopped (away id) (intake_of_assign other)
        (if_neg other.symm))
  | @assignWork _ _ k x a v y t tr _ _ run _ _ live mine advert =>
      obtain ⟨_, w, advert', owner, _⟩ := all.registry.tree k x a live mine
      obtain rfl := Option.some.inj (advert.symm.trans advert')
      have other : v.client ≠ c := owner ▸ running run
      exact .inl (still.keep older still.stopped (away id) (intake_of_assign other)
        (if_neg other.symm))
  | rest run =>
      refine .inl (still.keep older (by simp) (away fun parked => ?_) same rfl)
      exact absurd (Option.some.inj parked) (running run)
  | @replyQueued _ _ k x y t tr contents run _ live queued _ _ deletable =>
      have owner := all.own.owner_eq live (List.mem_append_right _ queued) deletable.live
      have other : tr.client ≠ c := owner ▸ running run
      exact .inl (still.keep older still.stopped (away id) (intake_of_reply other)
        (if_neg other.symm))
  | @replyWaiting _ _ x t tr contents _ live _ _ deletable room =>
      by_cases own : c = tr.client
      · exact .inr ⟨t, tr, contents, deletable.live, room, ⟨x, own ▸ live⟩, own.symm, rfl⟩
      · exact .inl (still.keep older still.stopped (away id) (intake_of_reply (Ne.symm own))
          (if_neg own))
  | close _ quiet =>
      rcases quiet with rfl | rfl <;>
        exact .inl (still.keep older (by simp) (away (by simp)) same rfl)
  | done quiet =>
      rcases quiet with rfl | ⟨k, rfl⟩ | ⟨k, rfl⟩ <;>
        exact .inl (still.keep older (by simp) (away (by simp)) same rfl)
  | sweep | purge =>
      refine .inl (still.keep older still.stopped (away id) (fun y live => ?_) rfl)
      obtain ⟨x, live', rfl⟩ := Option.map_eq_some_iff.mp live
      exact ⟨x, live', rfl⟩
  | dropClient =>
      refine .inl (still.keep older still.stopped (away id) (fun y live => ?_) rfl)
      exact ⟨y, (put_none_eq_some_iff.mp live).2, rfl⟩

theorem sent_reply (still : Still c said φ σ) {t : TranId} {tr : Transaction} {contents : Bytes}
    (own : tr.client = c) : (σ.reply t tr contents).sent c = said ++ replyFrame tr contents := by
  subst own
  rw [← still.silent]
  exact if_pos rfl

theorem trace (still : Still c said {} σ) (sound : Sound ⟨{}, σ⟩) (new : PicksNew σ e) {κ : Conf}
    (trace : Trace σ e ⟨{}, σ⟩ κ) :
    Still c said κ.phase κ.state ∨ said.length < (κ.state.sent c).length := by
  induction trace with
  | refl => exact .inl still
  | tail sofar eff ih =>
      rcases ih with still | grown
      · refine (still.effect (sound.trace sound.parking new sofar) sound.parking eff).imp_right ?_
        rintro ⟨t, tr, contents, _, _, _, own, same⟩
        rw [same, still.sent_reply own]
        simp [replyFrame]
      · exact .inr (Nat.lt_of_lt_of_le grown (eff.sent_grows c).length_le)

end Still

/-! ## Blocked clients -/

theorem svrgetrply_silent {φ : Phase} {c : ClientId} {b : BufId} {u : PUnit} {σ τ : State}
    (inv : Inv ⟨φ, σ⟩) (done : svrgetrply c b σ = .ok (u, τ)) (silent : τ.sent c = σ.sent c) :
    ∃ w, τ = (σ.freeBuf b).block c w := by
  simp only [svrgetrply, bind_ok_iff, readBuf_ok_iff, tpfree_ok_iff, readClient_ok_iff, get_ok_iff,
    and_assoc, exists_and_left, exists_eq_left, exists_const] at done
  obtain ⟨contents, room, _, x, live, rest⟩ := done
  have answered : ∀ {frame : Bytes}, frame ≠ [] → τ.sent c ≠ σ.sent c ++ frame := by
    intro frame nonempty same
    exact nonempty (List.append_right_eq_self.mp (same.symm.trans silent))
  have refused : ∀ {errno}, senderrno c errno (σ.freeBuf b) ≠ .ok (u, τ) := by
    intro errno done
    obtain ⟨_, rfl⟩ := senderrno_ok_iff.mp done
    exact answered (List.cons_ne_nil _ _) (if_pos rfl)
  cases reply : (if tolong (contents.drop IOSHORT) &&& TPGETANY = 0 then
      (σ.freeBuf b).findCd x.replies (toshort contents) else x.replies.head?) with
  | some t =>
      simp only [reply] at rest
      have queued : t ∈ x.replies := by
        split at reply
        · exact mem_of_findCd reply
        · exact List.mem_of_head? reply
      obtain ⟨tr, data, y, deletable, _, _, _, rfl⟩ := sndReply_ok_iff.mp rest
      have owner : tr.client = c :=
        inv.own.owner_eq live (List.mem_append_right _ queued) deletable.live
      subst owner
      have frame : replyFrame tr data ≠ [] := by simp [replyFrame]
      exact absurd (if_pos rfl) (answered frame)
  | none =>
      simp only [reply] at rest
      cases awaited : (if tolong (contents.drop IOSHORT) &&& TPGETANY = 0 then
          ((σ.freeBuf b).findCd x.requests (toshort contents)).map Wait.tran
          else some Wait.any) with
      | none =>
          simp only [awaited] at rest
          exact absurd rest refused
      | some w =>
          simp only [awaited] at rest
          split at rest
          · exact absurd rest refused
          · exact ⟨w, (modifyClient_ok_iff.mp rest).2⟩

/-- Nobody turns to a blocked client but to answer it. -/
theorem Blocked.still {c : ClientId} {σ : State} (blocked : Blocked PicksNew c σ) :
    Still c (σ.sent c) {} σ := by
  induction blocked with
  | @asks σ τ e filled reach ok received done silent =>
      have sound := sound_of_reachable reach
      obtain ⟨x, b, contents, live, into, reading, room, length, nonempty, called⟩ :=
        step_of_received received
      rw [called, map_snd_ok_iff] at done
      obtain ⟨u, done⟩ := done
      have parking : Parking {} σ := sound.parking
      have away := parking.not_waiting live (.inl (by simp [reading]))
      have begins : Effect σ e ⟨{}, σ⟩ ⟨.called c x .svrgetrply b,
          σ.begin c .svrgetrply b filled⟩ :=
        .begin received live into reading room length nonempty
      have connected : c ∈ σ.clients := (sound.all.registry.mem_clients c).mpr ⟨x, live⟩
      obtain ⟨w, rfl⟩ := svrgetrply_silent (sound.all.effect begins) done silent
      refine ⟨sound.all.fresh.clients c connected, by simp, away, fun y live' => ?_, rfl⟩
      obtain ⟨z, begun, rfl⟩ := change_eq_some_iff.mp live'
      obtain ⟨x', _, rfl⟩ := change_eq_some_iff.mp begun
      rw [if_pos rfl, if_pos rfl]
      exact ⟨rfl, rfl, rfl⟩
  | @stays σ τ e blocked ok done connected silent still =>
      have sound := sound_of_reachable blocked.reachable
      rcases still.trace sound ok (step_trace sound.all done) with still' | grown
      · rw [silent]
        exact still'
      · have grown : (σ.sent c).length < (τ.sent c).length := grown
        rw [silent] at grown
        exact absurd grown (Nat.lt_irrefl _)

/-! ## Linking -/

theorem alone_of_forM_addToWaitq {adverts : List AdvertId} {p : AdvertId} {u : PUnit} {σ τ : State}
    (threaded : σ.links.Threaded σ.isHead σ.home) (nodup : (p :: adverts).Nodup)
    (current : ∀ a ∈ p :: adverts, ∃ v, σ.advert a = some v)
    (alone : ∀ a ∈ p :: adverts, σ.links.Alone (.adv a))
    (done : adverts.forM addToWaitq σ = .ok (u, τ)) : τ.links.Alone (.adv p) := by
  induction adverts generalizing σ with
  | nil =>
      obtain ⟨_, rfl⟩ := pure_ok_iff.mp done
      exact alone p List.mem_cons_self
  | cons a adverts ih =>
      obtain ⟨_, μ, visited, rest⟩ := bind_ok_iff.mp done
      obtain ⟨v, advert, linkable, rfl⟩ := addToWaitq_ok_iff.mp visited
      obtain ⟨svc, service⟩ := Option.isSome_iff_exists.mp linkable.1
      have head : σ.isHead (.head v.svc) := ⟨svc, service⟩
      obtain ⟨linked, _, others⟩ := threaded.append head (State.home_adv advert)
        (alone a (List.mem_cons_of_mem _ List.mem_cons_self))
      have heads : (σ.park v.svc a).isHead = σ.isHead :=
        State.isHead_congr fun s => exists_change_eq_some_iff
      have fewer : ∀ b ∈ p :: adverts, b ∈ p :: a :: adverts ∧ b ≠ a := by
        intro b member
        simp only [List.nodup_cons, List.mem_cons, not_or] at nodup
        rcases List.mem_cons.mp member with rfl | inside
        · exact ⟨List.mem_cons_self, nodup.1.1⟩
        · refine ⟨List.mem_cons_of_mem _ (List.mem_cons_of_mem _ inside), ?_⟩
          rintro rfl
          exact nodup.2.1 inside
      refine ih (σ := σ.park v.svc a) ?_ ?_ (fun b member => current b (fewer b member).1)
        (fun b member => ?_) rest
      · rw [heads]
        exact linked
      · exact nodup.sublist (List.Sublist.cons_cons p (List.sublist_cons_self a adverts))
      · obtain ⟨w, advert'⟩ := current b (fewer b member).1
        exact (others (.adv b) _ (fun same => (fewer b member).2 (Node.adv.inj same))
          (State.home_adv advert')).mpr (alone b (fewer b member).1)

/-! ## The modes -/

/-- As long as nobody is handed a transaction that has been handed out before: a client with an
advertisement on a wait queue, where it is once, is neither being read from nor blocked; a blocked
client is not being read from; `svriowait` is never called for a client that is being read from, the
only assertion that can fail being that on the buffer of a `TPTRETN` with a negative length; and
`add_to_waitq` finds every advertisement unlinked. -/
theorem modes_exclusive {σ : State} (reach : Reachable PicksNew σ) :
    (∀ c x a v, σ.client c = some x → σ.advert a = some v → v.client = c →
      ¬σ.links.Alone (.adv a) → x.Idle ∧ ¬Blocked PicksNew c σ ∧
        ∃ entries, σ.links.IsRing (.head v.svc) entries ∧ entries.count (.adv a) = 1) ∧
    (∀ c x, σ.client c = some x → Blocked PicksNew c σ → x.Idle) ∧
    (∀ e, PicksNew σ e → step σ e = .error .assertion → ∃ c filled,
      Received σ e c .svrreturn filled ∧ (tolong (filled.drop (1 + IOLONG))).toInt < 0) ∧
    ∀ (env : Env) c x visited p left ρ u τ, σ.client c = some x → x.handler ≠ none →
      SameTables σ ρ → env.walk x.adverts = visited ++ p :: left →
      visited.forM addToWaitq ρ = .ok (u, τ) → τ.links.Alone (.adv p) := by
  have sound := sound_of_reachable reach
  have parking : Parking {} σ := sound.parking
  refine ⟨?_, ?_, ?_, ?_⟩
  · intro c x a v live advert owner linked
    have waits : Waiting {} σ c := .inl ⟨a, v, advert, owner, linked⟩
    refine ⟨(parking.resting c x waits live).idle, fun blocked => blocked.still.away waits, ?_⟩
    obtain ⟨_, entries, ring, member⟩ :=
      (parking.rings.threaded.node _ _ (State.home_adv advert)).resolve_left linked
    exact ⟨entries, ring, List.count_eq_one_of_mem (List.nodup_cons.mp ring.nodup).2 member⟩
  · exact fun c x live blocked => blocked.still.idle x live
  · exact fun e new faults => (misuse_of_step sound new (.inl rfl) faults).2
  · intro env c x visited p left ρ u τ live reading same walked done
    have away := parking.not_waiting live (.inl reading)
    have perm := env.walk_perm x.adverts
    have trees := sound.all.registry.tree_nodup c x live
    have current : ∀ a ∈ p :: visited, ∃ v, σ.advert a = some v ∧ v.client = c := by
      intro a member
      have mine : a ∈ x.adverts := by
        refine perm.mem_iff.mp ?_
        rw [walked]
        rcases List.mem_cons.mp member with rfl | inside
        · simp
        · simp [inside]
      obtain ⟨_, v, advert, owner, _⟩ := sound.all.registry.tree c x a live mine
      exact ⟨v, advert, owner⟩
    have nodup : (p :: visited).Nodup := by
      rw [← perm.nodup_iff, walked, List.nodup_middle] at trees
      exact trees.sublist (List.Sublist.cons_cons p (List.sublist_append_left visited left))
    refine alone_of_forM_addToWaitq ?_ nodup ?_ ?_ done
    · have rings : Rings {} ρ := parking.rings.congr same.links same.service same.advert
        (fun t => by rw [same.tran]) rfl
      exact rings.threaded
    · intro a member
      obtain ⟨v, advert, _⟩ := current a member
      exact ⟨v, same.advert ▸ advert⟩
    · intro a member
      obtain ⟨v, advert, owner⟩ := current a member
      rw [same.links]
      exact Parking.alone_of_not_waiting away advert owner

open Scenario in
/-- Client 2 is blocked while client 4 waits for work. -/
theorem modes_exclusive_blocked : ∃ σ x y v, Blocked PicksNew 2 σ ∧ σ.client 2 = some x ∧ x.Idle ∧
    σ.client 4 = some y ∧ σ.advert 13 = some v ∧ v.client = 4 ∧ ¬σ.links.Alone (.adv 13) ∧ y.Idle ∧
    ¬Blocked PicksNew 4 σ := by
  obtain ⟨σ, reach, seen⟩ := reachable_of_permitted
    ([connect, connect, connect] ++ advertise 0 65 ++ work 0 ++ advertise 4 66 ++ work 4 ++
      call 2 65 0 9 ++ [receive 2 [TPTGRPLY] 0])
    (fun σ => (step σ (receive 2 (shortBytes 9 ++ longBytes 0) 0)).toOption.any fun τ : State =>
      decide (PicksNew σ (receive 2 (shortBytes 9 ++ longBytes 0) 0) ∧
        received σ (receive 2 (shortBytes 9 ++ longBytes 0) 0) =
          some (2, .svrgetrply, shortBytes 9 ++ longBytes 0) ∧
        τ.sent 2 = σ.sent 2 ∧ (τ.client 2).isSome ∧ (τ.client 4).isSome ∧
        (τ.advert 13).map Advert.client = some 4 ∧ τ.links.p1 (.adv 13) = .head 12)) true
    (show permitted PicksNew _ _ = true by decide +kernel) (by decide +kernel)
  obtain ⟨τ, done, shown⟩ := step_of_any seen
  obtain ⟨new, received, silent, first, second, offered, linked⟩ := of_decide_eq_true shown
  obtain ⟨x, live⟩ := Option.isSome_iff_exists.mp first
  obtain ⟨y, live'⟩ := Option.isSome_iff_exists.mp second
  obtain ⟨v, advert, owner⟩ := Option.map_eq_some_iff.mp offered
  have blocked : Blocked PicksNew 2 τ := .asks reach new received done silent
  have onQueue : ¬τ.links.Alone (.adv 13) := by simp [Links.Alone, linked]
  obtain ⟨waiting, blocking, _⟩ := modes_exclusive (reach.next new done)
  obtain ⟨idle', unblocked, _⟩ := waiting 4 y 13 v live' advert owner onQueue
  exact ⟨τ, x, y, v, blocked, live, blocking 2 x live blocked, live', advert, owner, onQueue, idle',
    unblocked⟩

open Scenario in
/-- Client 0 has been handed its own transaction, and so has client 2: the reply of client 2 is for
a client that is being read from. -/
theorem svriowait_while_reading : ∃ σ,
    run .start ([connect, connect] ++ advertise 0 65 ++ advertise 2 65 ++ call 0 65 0 9 ++ work 0 ++
      work 2 ++ [receive 2 [TPTRETN] 0]) = .ok σ ∧ Reachable anyStep σ ∧
    step σ (receive 2 ([2] ++ longBytes 0 ++ longBytes 0) 0) = .error .assertion := by
  obtain ⟨σ, execution, reach, dies⟩ := reachable_of_outcome
    ([connect, connect] ++ advertise 0 65 ++ advertise 2 65 ++ call 0 65 0 9 ++ work 0 ++ work 2 ++
      [receive 2 [TPTRETN] 0])
    (death · (receive 2 ([2] ++ longBytes 0 ++ longBytes 0) 0)) (some .assertion)
    (by decide +kernel)
  exact ⟨σ, execution, reach, death_eq_some_iff.mp dies⟩

end Switchboard
end Xatmi
