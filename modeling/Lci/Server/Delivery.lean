/-
Every step of a job is one of the protocol of `Server.Rendezvous`, and the parties hold what the stages of the
transfers say.
-/
import Mathlib.Logic.Relation
import Lci.Server.Parties

namespace Lci.Server.Rendezvous

open Lci.Hash Lci.Proto History Relation

/-! ## Steps of a rank -/

section Does

variable {p : PktId} {s s' : Sys} {d : Dev} {cs : List PktId} {ms : List Msg} {vs : List Event} {r : CInt}

theorem around_of_does (hd : Does p s.dev s'.dev cs ms vs) (hcs : ∀ q ∈ cs, q = p)
    (ho : ∀ q, q ≠ p → (q ∈ s'.owed ↔ q ∈ s.owed)) : Around p s s' := by
  refine ⟨hd.pk, hd.req, fun q hq => ?_, ho⟩
  rw [hd.sends, List.mem_append]
  exact ⟨fun h => h.resolve_right fun hc => hq (hcs q hc), .inl⟩

theorem newWires_of_does (hd : Does p s.dev s'.dev cs ms vs) (r : CInt) :
    newWires r s s' = (cs.zip ms).map fun x => ⟨r, x.1, x.2, xf s' x.1, false⟩ := by
  unfold newWires
  rw [hd.sends, hd.out, List.drop_left, List.drop_left]
  rfl

theorem newWires_same (h : s'.dev.sends = s.dev.sends) (r : CInt) : newWires r s s' = [] := by
  unfold newWires
  rw [h, List.drop_length]
  rfl

theorem newEvents_append (h : s'.dev.events = s.dev.events ++ vs) (r : CInt) :
    newEvents r s s' = vs.map fun v => .event r v (eventBuf s'.dev v) := by
  unfold newEvents
  rw [h, List.drop_left]

theorem newEvents_of_does (hd : Does p s.dev s'.dev cs ms vs) (r : CInt) :
    newEvents r s s' = vs.map fun v => .event r v (eventBuf s'.dev v) := newEvents_append hd.events r

theorem newEvents_same (h : s'.dev.events = s.dev.events) (r : CInt) : newEvents r s s' = [] :=
  newEvents_append (h.trans (List.append_nil _).symm) r

theorem next_same (h : d.out = s.dev.out) : s.next d = { s with dev := d } := by
  unfold Sys.next
  rw [rtrsSince_same h, List.append_nil]

/-- The state after a call, by what the call does. -/
theorem next_of_does (hd : Does p s.dev d cs ms vs) (hs : s.next d = s') :
    Does p s.dev s'.dev cs ms vs ∧ s'.owed = s.owed ++ ms.filterMap (rtrOf s.dev.pageSize) := by
  subst hs
  refine ⟨hd, ?_⟩
  show _ ++ rtrsSince _ _ = _
  unfold rtrsSince
  rw [hd.out, List.drop_left]

end Does

/-! ## The invariant -/

section Invariant

variable (T : Nat → Transfer) (j₀ : Job)

/-- The memories that a job starts with. -/
def start (r : CInt) : Nat → Byte := (j₀.node r).dev.mem

/-- The devices are in order, and the parties hold what the stages say; `j₀` is the job at its start. -/
structure Inv (j : Job) (st : Nat → Stage) : Prop where
  good : ∀ r, Good (j.node r)
  fixed : ∀ r, (j.node r).dev.pageSize = (j₀.node r).dev.pageSize ∧ (j.node r).dev.backend = (j₀.node r).dev.backend ∧
    ∀ e, ((j.node r).dev.eps e).ar = ((j₀.node r).dev.eps e).ar
  tgt : ∀ r, TgtAt T r (j.node r) fun x => (st x).tgt
  org : ∀ r, OrgAt T r (j.node r) fun x => (st x).org
  pend : ∀ r, PendAt T r (j.node r) j.pending
  net : NetOk T (fun r => (j₀.node r).dev.pageSize) (fun r => (j₀.node r).dev.backend) j.flight fun x => (st x).net
  mem : ∀ r, (j.node r).dev.mem = replay r (start j₀ r) j.log

variable {T j₀} {j : Job} {st : Nat → Stage}

theorem update_proj {α : Type} (st : Nat → Stage) (x : Nat) (σ : Stage) (F : Stage → α) :
    (fun y => F (Function.update st x σ y)) = Function.update (fun y => F (st y)) x (F σ) := by
  funext y
  by_cases h : y = x
  · subst h
    simp
  · simp [h]

/-- The record writes nothing. -/
def Rec.Quiet (v : Rec) : Prop := ∀ r m, v.apply r m = m

theorem replay_quiet {k : List Rec} (hk : ∀ v ∈ k, v.Quiet) (r : CInt) (m : Nat → Byte) : replay r m k = m := by
  induction k generalizing m with
  | nil => rfl
  | cons v k ih =>
    show replay r (v.apply r m) k = m
    rw [hk v List.mem_cons_self, ih fun u hu => hk u (List.mem_cons_of_mem _ hu)]

theorem newEvents_quiet (r : CInt) (s s' : Sys) : ∀ v ∈ newEvents r s s', v.Quiet := by
  intro v hv
  obtain ⟨_, -, rfl⟩ := List.mem_map.1 hv
  exact fun _ _ => rfl

theorem newWires_src (r : CInt) (s s' : Sys) {r' : CInt} (hr : r' ≠ r) :
    ((newWires r s s').filter fun w => w.src = r') = [] := by
  refine List.filter_eq_nil_iff.2 fun w hw => ?_
  obtain ⟨_, -, rfl⟩ := List.mem_map.1 hw
  simpa using fun e => hr e.symm

/-- A step of rank `r` that takes transfer `x` to stage `σ`: what is to be shown of it is about this rank and this
transfer. -/
theorem Inv.moves (h : Inv T j₀ j st) (flight pending : List Wire) (recs : List Rec) {r : CInt} {s : Sys} {x : Nat}
    {σ : Stage}
    (hg : Good s) (hfix : s.dev.pageSize = (j.node r).dev.pageSize ∧ s.dev.backend = (j.node r).dev.backend ∧
      ∀ e, (s.dev.eps e).ar = ((j.node r).dev.eps e).ar)
    (ht : TgtAt T r s (Function.update (fun y => (st y).tgt) x σ.tgt)) (htx : (T x).tgt = r ∨ σ.tgt = (st x).tgt)
    (ho : OrgAt T r s (Function.update (fun y => (st y).org) x σ.org)) (hox : (T x).org = r ∨ σ.org = (st x).org)
    (hp : PendAt T r s (pending ++ newWires r (j.node r) s))
    (hpx : ∀ r', r' ≠ r → (pending.filter fun w => w.src = r') = j.pending.filter fun w => w.src = r')
    (hn : NetOk T (fun r => (j₀.node r).dev.pageSize) (fun r => (j₀.node r).dev.backend)
    (flight ++ newWires r (j.node r) s)
      (Function.update (fun y => (st y).net) x σ.net))
    (hm : s.dev.mem = replay r (j.node r).dev.mem recs) (hmx : ∀ r', r' ≠ r → ∀ m, replay r' m recs = m) :
    Inv T j₀ (({ j with flight := flight, pending := pending } : Job).moves r s recs) (Function.update st x σ) := by
  have hlog : ∀ r' m, replay r' m (j.log ++ (recs ++ newEvents r (j.node r) s)) =
    replay r' (replay r' m j.log) recs := by
    intro r' m
    rw [replay_append, replay_append, replay_quiet (newEvents_quiet _ _ _)]
  refine ⟨fun r' => ?_, fun r' => ?_, fun r' => ?_, fun r' => ?_, fun r' => ?_, ?_, fun r' => ?_⟩
  -- at rank `r` the hypotheses, at the other ranks the invariant before the step
  all_goals try (by_cases hr : r' = r)
  · subst hr
    simpa [Job.moves] using hg
  · simpa [Job.moves, hr] using h.good r'
  · subst hr
    obtain ⟨h1, h2, h3⟩ := h.fixed r'
    obtain ⟨f1, f2, f3⟩ := hfix
    simpa [Job.moves] using ⟨f1.trans h1, f2.trans h2, fun e => (f3 e).trans (h3 e)⟩
  · simpa [Job.moves, hr] using h.fixed r'
  · subst hr
    rw [update_proj]
    simpa [Job.moves] using ht
  · rw [update_proj]
    have hT : TgtAt T r' (j.node r') (Function.update (fun y => (st y).tgt) x σ.tgt) := by
      rcases htx with htx | htx
      · exact (h.tgt r').elsewhere (fun e => hr (e.symm.trans htx)) _
      · rw [htx, Function.update_eq_self]
        exact h.tgt r'
    simpa [Job.moves, hr] using hT
  · subst hr
    rw [update_proj]
    simpa [Job.moves] using ho
  · rw [update_proj]
    have hO : OrgAt T r' (j.node r') (Function.update (fun y => (st y).org) x σ.org) := by
      rcases hox with hox | hox
      · exact (h.org r').elsewhere (fun e => hr (e.symm.trans hox)) _
      · rw [hox, Function.update_eq_self]
        exact h.org r'
    simpa [Job.moves, hr] using hO
  · subst hr
    simpa [Job.moves] using hp
  · have hP : PendAt T r' (j.node r') (pending ++ newWires r (j.node r) s) := by
      refine (h.pend r').elsewhere ?_
      rw [List.filter_append, newWires_src _ _ _ hr, List.append_nil]
      exact hpx r' hr
    simpa [Job.moves, hr] using hP
  · rw [update_proj]
    exact hn
  · subst hr
    show (Function.update j.node r' s r').dev.mem = replay r' _ (j.log ++ _)
    rw [Function.update_self, hlog, ← h.mem r']
    exact hm
  · show (Function.update j.node r s r').dev.mem = replay r' _ (j.log ++ _)
    rw [Function.update_of_ne hr, hlog, hmx r' hr]
    exact h.mem r'

/-! ## Steps that send nothing -/

variable (T j₀) in
/-- A step of a job is defined, keeps the invariant, and is one of the protocol. -/
def Follows (j : Job) (st : Nat → Stage) (r : Option Job) : Prop :=
  ∃ j' st', r = some j' ∧ Inv T j₀ j' st' ∧ ReflTransGen (Abs.Step T (start j₀)) ⟨st, j.log⟩ ⟨st', j'.log⟩

theorem Follows.of_idle {j' : Job} (h : Inv T j₀ j' st) {l : List Rec} (hn : ∀ v ∈ l, v.Neutral)
    (hl : j'.log = j.log ++ l) :
    Follows T j₀ j st (some j') := by
  refine ⟨j', st, rfl, h, ReflTransGen.single ?_⟩
  rw [hl]
  exact Abs.Step.idle l hn

variable (T j₀) in
/-- Such a step that leads transfer `x` to stage `σ`. -/
def Leads (j : Job) (st : Nat → Stage) (x : Nat) (σ : Stage) (r : Option Job) : Prop :=
  ∃ j', r = some j' ∧ Inv T j₀ j' (Function.update st x σ) ∧
    Abs.Step T (start j₀) ⟨st, j.log⟩ ⟨Function.update st x σ, j'.log⟩

theorem Leads.of_next {j' : Job} {x : Nat} {σ : Stage} (h : Inv T j₀ j' (Function.update st x σ)) {k l : List Rec}
    (hk : Next T (start j₀) x j.log (st x) k σ) (hn : ∀ v ∈ l, v.Neutral) (hl : j'.log = j.log ++ k ++ l) :
    Leads T j₀ j st x σ (some j') := by
  refine ⟨j', rfl, h, ?_⟩
  rw [hl]
  exact Abs.Step.next x k l σ hk hn

theorem Leads.follows {x : Nat} {σ : Stage} {r : Option Job} (h : Leads T j₀ j st x σ r) : Follows T j₀ j st r := by
  obtain ⟨j', hr, hI, hs⟩ := h
  exact ⟨j', _, hr, hI, ReflTransGen.single hs⟩

theorem Follows.of_next {j' : Job} {x : Nat} {σ : Stage} (h : Inv T j₀ j' (Function.update st x σ)) {k l : List Rec}
    (hk : Next T (start j₀) x j.log (st x) k σ) (hn : ∀ v ∈ l, v.Neutral) (hl : j'.log = j.log ++ k ++ l) :
    Follows T j₀ j st (some j') :=
  (Leads.of_next h hk hn hl).follows

variable (T) in
/-- A state of rank `r` that is the job's, as far as the transfers go: one in which the rank may be while it serves. -/
structure Base (j : Job) (st : Nat → Stage) (r : CInt) (s : Sys) : Prop where
  tgt : TgtAt T r s fun x => (st x).tgt
  org : OrgAt T r s fun x => (st x).org
  pend : PendAt T r s j.pending
  sends : s.dev.sends = (j.node r).dev.sends
  out : s.dev.out = (j.node r).dev.out
  events : s.dev.events = (j.node r).dev.events
  mem : s.dev.mem = (j.node r).dev.mem
  owed : s.owed = (j.node r).owed
  fixed : s.dev.pageSize = (j.node r).dev.pageSize ∧ s.dev.backend = (j.node r).dev.backend ∧
    ∀ e, (s.dev.eps e).ar = ((j.node r).dev.eps e).ar

theorem Base.newWires {r : CInt} {s : Sys} (h : Base T j st r s) (s' : Sys) :
    newWires r (j.node r) s' = newWires r s s' := by
  unfold Rendezvous.newWires
  rw [h.sends, h.out]

theorem Base.newEvents {r : CInt} {s : Sys} (h : Base T j st r s) (s' : Sys) :
    newEvents r (j.node r) s' = newEvents r s s' := by
  unfold Rendezvous.newEvents
  rw [h.events]

theorem Base.next {r : CInt} {s : Sys} (h : Base T j st r s) (hh : s.held = (j.node r).held) (d : Dev) :
    (j.node r).next d = s.next d := by
  unfold Sys.next rtrsSince
  rw [h.owed, h.out, h.fixed.1, hh]

/-- What is done to a packet that has no part in a transfer. -/
theorem Inv.base (h : Inv T j₀ j st) {r : CInt} {s : Sys} {p : PktId} (hd : Does p (j.node r).dev s.dev [] [] [])
    (hp : Unused (j.node r) p) (ho : s.owed = (j.node r).owed) : Base T j st r s := by
  have hsends : s.dev.sends = (j.node r).dev.sends := by rw [hd.sends, List.append_nil]
  have hns : p ∉ s.dev.sends := by rw [hsends]; exact hp.sends
  have ha : Around p (j.node r) s := around_of_does hd (by simp) fun q _ => by rw [ho]
  refine ⟨(h.tgt r).frame ha hd.slots hp (by rw [ho]; exact hp.owed) fun hm => absurd hm hns,
    (h.org r).frame ha (fun hm => absurd hm hp.sends) fun hm => absurd hm hns, (h.pend r).frame hsends fun q hq => ?_,
    hsends, by rw [hd.out, List.append_nil], by rw [hd.events, List.append_nil], hd.mem, ho, hd.fixed⟩
  have hne : q ≠ p := fun e => hp.sends (e ▸ hq)
  rw [ha.xf hne, ha.pk q hne]
  exact ⟨rfl, rfl⟩

/-- A step that sends nothing and raises nothing. -/
theorem Inv.quiet (h : Inv T j₀ j st) {r : CInt} {s : Sys} (hg : Good s) (hb : Base T j st r s) :
    Inv T j₀ (j.moves r s []) st ∧ (j.moves r s []).log = j.log := by
  have hw : newWires r (j.node r) s = [] := (hb.newWires s).trans (newWires_same rfl r)
  have hv : newEvents r (j.node r) s = [] := (hb.newEvents s).trans (newEvents_same rfl r)
  refine ⟨?_, by simp [Job.moves, hv]⟩
  have hx := h.moves (x := 0) (σ := st 0) j.flight j.pending [] hg hb.fixed (by simpa using hb.tgt) (.inr rfl)
    (by simpa using hb.org) (.inr rfl) (by rw [hw, List.append_nil]; exact hb.pend) (fun _ _ => rfl)
    (by rw [hw, List.append_nil, Function.update_eq_self]; exact h.net) hb.mem fun _ _ _ => rfl
  rwa [Function.update_eq_self] at hx

theorem Inv.call_quiet (h : Inv T j₀ j st) {r : CInt} {op : Op} {s : Sys} (hs : Server.step (j.node r) op = some s)
    (hg : Good s) (hb : Base T j st r s) : Follows T j₀ j st (j.step T (.call r op)) := by
  obtain ⟨hI, hl⟩ := h.quiet hg hb
  unfold Job.step
  dsimp only
  rw [hs]
  exact Follows.of_idle hI (l := []) (by simp) (by rw [hl, List.append_nil])

/-- The completion queue and the end of a progress call. -/
theorem Inv.call_other (h : Inv T j₀ j st) {r : CInt} {op : Op} (ha : Server.Allowed (j.node r) op)
    (hop : (∃ ep, op = .cqPop ep) ∨ (∃ env rp, op = .cqReqfree env rp) ∨ ∃ env, op = .refill env) :
    Follows T j₀ j st (j.step T (.call r op)) := by
  have hg := h.good r
  rcases hop with ⟨ep, rfl⟩ | ⟨env, rp, rfl⟩ | ⟨env, rfl⟩
  · refine h.call_quiet rfl (hg.cqPop ep) (h.base (p := LC_SERVER_NUM_PKTS) ?_ hg.unused_end rfl)
    exact does_setEp (j.node r).dev _ ep (f := fun x => { x with cq := (cqPop ((j.node r).dev.eps ep).cq).2 }) rfl rfl
  · obtain ⟨s, hs, hgood, -⟩ := hg.step (o := .cqReqfree env rp) ha trivial
    refine h.call_quiet hs hgood ?_
    obtain ⟨d, hd, rfl⟩ := Option.map_eq_some_iff.1 hs
    obtain ⟨q, -, hput⟩ := Option.bind_eq_some_iff.1 hd
    obtain ⟨pool, -, rfl⟩ := Option.map_eq_some_iff.1 hput
    exact h.base (does_setPool _ LC_SERVER_NUM_PKTS pool) hg.unused_end rfl
  · obtain ⟨s, hs, hgood, -⟩ := hg.step (o := .refill env) ha trivial
    refine h.call_quiet hs hgood ?_
    obtain ⟨p, hp, hd⟩ := does_refill hg env
    obtain ⟨hd, ho⟩ := next_of_does hd (Option.some_injective _ hs)
    exact h.base hd hp (by rw [ho, List.filterMap_nil, List.append_nil])

/-! ## The start of a transfer -/

theorem Inv.sendl (h : Inv T j₀ j st) (hA : Abs.Inv T (start j₀) ⟨st, j.log⟩) (env : Env) {x : Nat}
    (hx : .started x ∉ j.log) :
    Follows T j₀ j st (j.step T (.sendl env x)) := by
  have hfresh : st x = .fresh := by
    by_contra hne
    exact hx ((hA.tells x).started hne)
  have hg := h.good (T x).org
  obtain ⟨s, hs, hgood, -⟩ :=
    hg.step (o := .sendl env (T x).src (T x).size (T x).tgt (T x).tag (T x).ep (T x).cb (T x).ce x)
    trivial trivial
  obtain ⟨loc, use, ho, -⟩ := hg.own
  unfold Job.step
  dsimp only
  rw [hs, Option.map_some]
  replace hs : (j.node (T x).org).next (lcSendl env (j.node (T x).org).dev (T x).src (T x).size (T x).tgt (T x).tag
    (T x).ep
    (T x).cb (T x).ce x).2 = s := Option.some_injective _ hs
  have hdev : s.dev = (lcSendl env (j.node (T x).org).dev (T x).src (T x).size (T x).tgt (T x).tag (T x).ep
    (T x).cb (T x).ce x).2 := by rw [← hs]; rfl
  rcases does_sendl ho env (T x).src (T x).size (T x).tgt (T x).tag (T x).ep (T x).cb (T x).ce x with
    hd | ⟨p, r, hp, hd, h1, h2, h3, h4, h5, hdata, hproto⟩
  · -- the pool is empty, nothing is sent
    obtain ⟨hd, hown⟩ := next_of_does hd hs
    obtain ⟨hI, hl⟩ := h.quiet hgood (h.base hd hg.unused_end (by rw [hown, List.filterMap_nil, List.append_nil]))
    have hw : newWires (T x).org (j.node (T x).org) s = [] := newWires_of_does hd _
    rw [if_pos hw]
    exact Follows.of_idle hI (l := []) (by simp) (by rw [hl, List.append_nil])
  · have hused := ho.unused (.inr (.inl hp))
    obtain ⟨hd, hown⟩ := next_of_does hd hs
    rw [← hdev] at hdata hproto
    replace hown : s.owed = (j.node (T x).org).owed := by simpa [rtrOf_send] using hown
    clear hs hdev
    have hxf : xf s p = x := by rw [xf, hdata]; exact h5
    have hw : newWires (T x).org (j.node (T x).org) s = [⟨(T x).org, p, .send (T x).tgt
        (makeProto (BitVec.ofNat 32 (T x).ep) .rts (T x).tag) packetRtsSize (.rdz r), x, false⟩] := by
      rw [newWires_of_does hd, ← hxf]
      rfl
    have hv : newEvents (T x).org (j.node (T x).org) s = [] := newEvents_of_does hd _
    have ha : Around p (j.node (T x).org) s := around_of_does hd (by simp) fun q _ => by rw [hown]
    have ht := (h.tgt (T x).org).frame ha hd.slots hused (by rw [hown]; exact hused.owed) fun _ => by rw [hproto]; simp
    rw [if_neg (by rw [hw]; simp)]
    refine Follows.of_next (x := x) (σ := .asked) (k := [.started x]) (l := []) ?_ (by rw [hfresh]; exact .start)
      (by simp) (by simp [Job.moves, hv])
    refine h.moves j.flight j.pending _ hgood hd.fixed ?_ (.inr (by rw [hfresh]; rfl)) ?_
      (.inl rfl) ?_ (fun _ _ => rfl) ?_ hd.mem fun _ _ _ => rfl
    · have hself : Stage.tgt .asked = (st x).tgt := by rw [hfresh]; rfl
      rw [hself, Function.update_eq_self]
      exact ht
    · have hself : Stage.org .asked = (st x).org := by rw [hfresh]; rfl
      rw [hself, Function.update_eq_self]
      exact (h.org _).frame ha (fun hm => absurd hm hused.sends) fun _ => by rw [hproto]; simp
    · have hP := (h.pend (T x).org).send ha hused.sends hd.sends (m := .send (T x).tgt
        (makeProto (BitVec.ofNat 32 (T x).ep) .rts (T x).tag) packetRtsSize (.rdz r)) (by rw [hproto]; simp)
          (by rw [hproto]; simp)
      rw [hxf] at hP
      rw [hw]
      exact hP
    · rw [hw]
      exact h.net.add (by rw [hfresh]; rfl) (.rts p r ⟨h1, h2, h3, h4, h5⟩)

/-! ## The answer to an RTS -/

theorem rtrOf_rtr {page : Nat} {q : PktId} (hps : page < 2 ^ 30) (hq : q < LC_SERVER_NUM_PKTS) (dst g m : CInt)
    (size : Nat) {v : Rdz}
    (hv : v.commId = BitVec.ofNat 32 (pktOffset page q)) : rtrOf page (.send dst (makeProto g .rtr m) size (.rdz v)) =
    some q := by
  have hlt := pktOffset_lt hps hq
  show (if protoOfBits (protoGetProto (makeProto g .rtr m)) = .rtr then _ else none) = _
  rw [protoGetProto_word, protoOfBits_bits, if_pos rfl, hv, BitVec.toNat_ofNat, Nat.mod_eq_of_lt (by omega),
    pktAt_pktOffset hq]

/-- The RTS in packet `q` is granted a buffer: it was stored there, or has just arrived. -/
theorem Inv.grant (h : Inv T j₀ j st) (flight : List Wire) {r : CInt} {s₁ s : Sys} (hb : Base T j st r s₁) (hg : Good s)
    {x buf : Nat} {q : PktId}
    {v : Rdz} (hgr : Grants q (T x).ep s₁.dev s.dev (T x).org buf v) (ho : s₁.next s.dev = s) (hx : (T x).tgt = r)
    (hst : st x = .asked ∨ st x = .stored q) (hc : Carries (T x) x (s₁.dev.pk q).data.view)
    (hn : ∀ w, Sails T (fun r => (j₀.node r).dev.pageSize) (fun r => (j₀.node r).dev.backend) x (.rtr q buf) w →
      NetOk T (fun r => (j₀.node r).dev.pageSize) (fun r => (j₀.node r).dev.backend) (flight ++ [w])
        (Function.update (fun y => (st y).net) x (.rtr q buf))) :
    Inv T j₀ (({ j with flight := flight } : Job).moves r s []) (Function.update st x (.granted q buf true)) ∧
      (({ j with flight := flight } : Job).moves r s []).log = j.log := by
  subst hx
  have hcv : Carries (T x) x v := hc.same hgr.rts
  have hxf : xf s q = x := by
    rw [xf, hgr.data]
    exact hcv.2.2.2.2
  have hsend : q ∈ s.dev.sends := by rw [hgr.does.sends]; simp
  replace ho : s.owed = s₁.owed ++ [q] := by
    have hrtr := rtrOf_rtr (by rw [hb.fixed.1]; exact (h.good _).page) (hg.send_lt hsend) (T x).org
      (BitVec.ofNat 32 (T x).ep)
      0 packetRtrSize hgr.commId
    rw [(next_of_does hgr.does ho).2, List.filterMap_cons, hrtr, List.filterMap_nil]
  have howed : q ∈ s.owed := by rw [ho]; simp
  -- the lists have no packet twice, so `q` was in neither before
  have hq : q ∉ s₁.owed ∧ q ∉ s₁.dev.sends := by
    have h1 := hg.owed_nodup
    have h2 := hg.sends_nodup
    rw [ho] at h1
    rw [hgr.does.sends] at h2
    exact ⟨fun hm => List.disjoint_of_nodup_append h1 hm (by simp), fun hm => List.disjoint_of_nodup_append h2 hm
      (by simp)⟩
  have ha : Around q s₁ s := around_of_does hgr.does (by simp) fun p hp => by rw [ho]; simp [hp]
  obtain ⟨-, -, hptr⟩ := hg.waiting (.inl howed)
  have hw : newWires (T x).tgt (j.node (T x).tgt) s = [⟨(T x).tgt, q, .send (T x).org
      (makeProto (BitVec.ofNat 32 (T x).ep) .rtr 0) packetRtrSize (.rdz v), xf s q, false⟩] :=
    (hb.newWires s).trans (newWires_of_does hgr.does _)
  have hv : newEvents (T x).tgt (j.node (T x).tgt) s = [] := (hb.newEvents s).trans (newEvents_of_does hgr.does _)
  obtain ⟨f1, f2, f3⟩ := hgr.does.fixed
  obtain ⟨b1, b2, b3⟩ := hb.fixed
  obtain ⟨i1, i2, -⟩ := h.fixed (T x).tgt
  have horg : Stage.org (.granted q buf true) = (st x).org := by rcases hst with e | e <;> rw [e] <;> rfl
  refine ⟨h.moves flight j.pending _ hg ⟨f1.trans b1, f2.trans b2, fun e => (f3 e).trans (b3 e)⟩ ?_
    (.inl rfl) ?_ (.inr horg) ?_ (fun _ _ => rfl) ?_ (hgr.does.mem.trans hb.mem) fun _ _ _ => rfl, by
  simp [Job.moves, hv]⟩
  · refine hb.tgt.update ha rfl (.inl hq) ?_ (fun e b y hy => .inl ⟨hgr.does.slots e b y hy,
      hg.send_slots hsend e b y hy⟩) (fun _ => ⟨hxf, buf, true, true, rfl⟩) fun q' buf' a b ht => ?_
    · rcases hst with e | e <;> rw [e]
      · exact .inl rfl
      · exact .inr (.inl rfl)
    · cases ht
      exact ⟨rfl, .inl rfl, by simp [hsend], by simp [howed], hxf, hgr.proto, hptr, hgr.buffer⟩
  · rw [horg, Function.update_eq_self]
    exact hb.org.frame ha (fun hm => absurd hm hq.2) fun _ => by rw [hgr.proto]; simp
  · rw [hw]
    refine hb.pend.send ha hq.2 hgr.does.sends (fun _ => ?_) fun hl => ?_
    · rw [hxf]
      exact ⟨rfl, rfl, _, v, rfl⟩
    · rw [hgr.proto] at hl
      cases hl
  · rw [hw, hxf]
    refine hn _ (.rtr q v q buf hcv hgr.tgtAddr ?_ fun hp => hgr.key ?_)
    · rw [hgr.commId, b1, i1]
    · rw [b2, i2]
      exact hp

/-! ## Receives -/

/-- A receive under the key of a message names the rank of the sender. -/
theorem rank_of_tag {o m rank tag : CInt} (ho : o.toNat < 2 ^ 31) (hm : m.toNat < 2 ^ 16) (hr : rank.toNat < 2 ^ 31)
    {k : InsertType} (h : tagOf (lcMakeKey rank tag) k = tagOf (lcMakeKey o m) k) : rank = o := by
  have hsign : tag.msb = false := by
    have h32 := congrArg (fun x : Key => x.getLsbD 32) h
    rw [tag_bit _ _ 31 (by decide), tag_bit _ _ 31 (by decide), lcMakeKey_bit31, lcMakeKey_bit31] at h32
    rw [h32]
    exact BitVec.msb_eq_false_iff_two_mul_lt.2 (by omega)
  have htag : tag.toNat < 2 ^ 31 := by
    have := BitVec.msb_eq_false_iff_two_mul_lt.1 hsign
    omega
  have hm' : m.toNat < 2 ^ 31 := by omega
  exact (lcMakeKey_inj hr htag ho hm' (tagOf_inj (validKey_of_tag hr htag) (validKey_of_tag ho hm') h).1).1

/-- The request of a receive is written. -/
theorem Inv.posting (h : Inv T j₀ j st) {r : CInt} {u : ReqId} (hu : Idle (j.node r) u) (f : Req → Req) :
    Base T j st r { j.node r with dev := (j.node r).dev.setReq (.user u) f } := by
  have hreq : ∀ v, v ≠ u → ((j.node r).dev.setReq (.user u) f).req v = (j.node r).dev.req v := by
    intro v hv
    simp [Dev.setReq, hv]
  have ht := h.tgt r
  refine ⟨⟨ht.stored, fun e b y hy v hv => ?_, ht.waits, fun x q buf a b hf hx => ?_⟩,
    ⟨(h.org r).writes, (h.org r).holds⟩,
    ⟨(h.pend r).ctxs, (h.pend r).made⟩, rfl, rfl, rfl, rfl, rfl, rfl, rfl, fun _ => rfl⟩
  · obtain ⟨rank, tag, h1, h2, h3, h4⟩ := ht.asked e b y hy v hv
    have hvu : v ≠ u := by
      rintro rfl
      exact hu.table e b y hy hv
    refine ⟨rank, tag, h1, h2, ?_⟩
    rw [hreq v hvu]
    exact ⟨h3, h4⟩
  · obtain ⟨h1, h2, h3, h4, h5, h6, h7⟩ := ht.waiting x q buf a b hf hx
    refine ⟨h1, h2, h3, h4, h5, h6, ?_⟩
    have hw : q ∈ (j.node r).owed ∨ (q ∈ (j.node r).dev.sends ∧ ((j.node r).dev.pk q).context.proto = .rtr) := by
      rcases h1 with h1 | h1
      · exact .inr ⟨h2.1 h1, h5⟩
      · exact .inl (h3.1 h1)
    rw [← h7]
    show (((j.node r).dev.setReq (.user u) f).getReq ((j.node r).dev.reqPtr q)).buffer = _
    unfold Dev.reqOf
    rcases h6 with h6 | ⟨v, h6⟩
    · rw [h6]
      rfl
    · have hvu : v ≠ u := by
        rintro rfl
        exact hu.rdz q hw h6
      rw [h6]
      exact congrArg Req.buffer (hreq v hvu)

/-- The receive is stored: its request has the buffer and the handle that it was called with. -/
theorem Base.storeReq {r : CInt} {s s' : Sys} (h : Base T j st r s) {ep : Nat} {t : Table Ptr}
    {b : Fin (2 ^ tblBitSize)} {rank tag : CInt} {u : ReqId} {buf : Nat} (hs : s' = { s with dev := s.dev.setTbl ep t })
    (hb : NewBucket s.dev ep t b (entries s.dev ep b ++ [⟨tagOf (lcMakeKey rank tag) .client, .req u⟩]))
    (hrank : rank.toNat < 2 ^ 31) (hh : (s.dev.req u).rhandle = rank) (hbuf : (s.dev.req u).buffer = .mem buf) :
    Base T j st r s' := by
  subst hs
  have hold : ∀ e c, ∀ y ∈ entries (s.dev.setTbl ep t) e c, y ∈ entries s.dev e c ∨
      y = ⟨tagOf (lcMakeKey rank tag) .client, .req u⟩ := by
    intro e c y hy
    rw [hb.entries] at hy
    split_ifs at hy with hec
    · obtain ⟨rfl, rfl⟩ := hec
      simpa using hy
    · exact .inl hy
  refine ⟨⟨fun e c y hy q hv => ?_, fun e c y hy v hv => ?_, h.tgt.waits, h.tgt.waiting⟩, ⟨h.org.writes, h.org.holds⟩,
    ⟨h.pend.ctxs, h.pend.made⟩, h.sends, h.out, h.events, h.mem, h.owed, h.fixed.1, h.fixed.2.1,
    fun e => (setTbl_cq s.dev ep t e).2.trans (h.fixed.2.2 e)⟩
  · rcases hold e c y hy with hy | rfl
    · exact h.tgt.stored e c y hy q hv
    · cases hv
  · rcases hold e c y hy with hy | rfl
    · exact h.tgt.asked e c y hy v hv
    · cases hv
      exact ⟨rank, tag, hrank, rfl, hh, buf, hbuf⟩

theorem Stage.stored_of_tgt {σ : Stage} {q : PktId} (h : σ.tgt = .stored q) : σ = .stored q := by
  cases σ with
  | stored q' =>
    cases h
    rfl
  | written q' buf rtr phase ctx =>
    unfold Stage.tgt at h
    dsimp only at h
    split_ifs at h
  | _ => cases h

/-- `lc_recv` and `lc_recvl`. -/
theorem Inv.receive (h : Inv T j₀ j st) (hT : ∀ x, (T x).org.toNat < 2 ^ 31) {r : CInt} {op : Op} {src size ep : Nat}
    {rank tag : CInt} {u : ReqId} (hu : Idle (j.node r) u) (htag : tag ≠ -1) (hrank : rank.toNat < 2 ^ 31) {s : Sys}
    (hg : Good s) (hs : Server.step (j.node r) op = some s) {k : Dev → PktId → Option Dev}
    (hop : Server.step (j.node r) op = (recvMatch ((lciInitReq (j.node r).dev (.mem src) size (.user u)).setRhandle
    (.user u) rank)
      rank tag ep u k).map (j.node r).next)
    (hk : ∀ d q, (d.pk q).context.proto = .rts → k d q = some (recvRts d ep u q)) :
    Follows T j₀ j st (j.step T (.call r op)) := by
  have hinit : (lciInitReq (j.node r).dev (.mem src) size (.user u)).setRhandle (.user u) rank =
      (j.node r).dev.setReq (.user u) fun q =>
        { q with buffer := .mem src, size := size, sync := false, rhandle := rank } := by
    simp [lciInitReq, Dev.setRhandle, Dev.setReq]
  rw [hinit] at hop
  have hb := h.posting hu fun q => { q with buffer := .mem src, size := size, sync := false, rhandle := rank }
  obtain ⟨hh, hbuf⟩ : (((j.node r).dev.setReq (.user u) fun q =>
      { q with buffer := .mem src, size := size, sync := false, rhandle := rank }).req u).rhandle = rank ∧
      (((j.node r).dev.setReq (.user u) fun q =>
      { q with buffer := .mem src, size := size, sync := false, rhandle := rank }).req u).buffer = .mem src := by
    simp [Dev.setReq]
  obtain ⟨d', hd', hnext⟩ := Option.map_eq_some_iff.1 (hop.symm.trans hs)
  generalize (j.node r).dev.setReq (.user u) (fun q =>
    { q with buffer := .mem src, size := size, sync := false, rhandle := rank }) = D at *
  have hkD : ∀ t q, (∃ b, ∃ y ∈ entries D ep b, y.val = .pkt q) →
    k (D.setTbl ep t) q = some (recvRts (D.setTbl ep t) ep u q) := by
    rintro t q ⟨b, y, hy, hv⟩
    exact hk _ q (hb.tgt.stored ep b y hy q hv).2.2.2.1
  rw [hb.next rfl] at hnext
  rcases does_recvMatch htag hh hbuf hkD hd' with ⟨t, rfl, hnew⟩ | ⟨q, b, y, hy, hv, hytag, v, hgr⟩
  · exact h.call_quiet hs hg (hb.storeReq (hnext.symm.trans (next_same rfl)) hnew hrank hh hbuf)
  · obtain ⟨hst, htgt, rfl, -, hc, m, hm, hkey⟩ := hb.tgt.stored ep b y hy q hv
    replace hst := Stage.stored_of_tgt hst
    have ho : rank = (T (xf _ q)).org := rank_of_tag (hT _) hm hrank (hytag.symm.trans hkey)
    rw [ho] at hgr
    have hdev : s.dev = d' := by rw [← hnext]; rfl
    rw [← hdev] at hgr hnext
    obtain ⟨hI, hl⟩ := h.grant j.flight hb hg hgr hnext htgt (.inr hst) hc fun w hw =>
      h.net.add (by rw [hst]; rfl) hw
    unfold Job.step
    dsimp only
    rw [hs]
    exact Follows.of_next (k := []) (l := []) hI (by rw [hst]; exact .grantStored q src) (by simp) (by rw [hl]; simp)

/-- The calls of a rank, other than `lc_sendl`. -/
theorem Inv.call (h : Inv T j₀ j st) (hT : ∀ x, (T x).org.toNat < 2 ^ 31) {r : CInt} {op : Op} (hp : Plain op)
    (ha : Server.Allowed (j.node r) op) (hs : Server.Sound (j.node r) op) :
    Follows T j₀ j st (j.step T (.call r op)) := by
  obtain ⟨s, hstep, hg, -⟩ := (h.good r).step ha hs
  match op, hp with
  | .recvl src size rank tag ep u, hp =>
    exact h.receive hT ha hs hp hg hstep (k := fun d p => some (recvRts d ep u p)) rfl fun d q _ => rfl
  | .recv env src size rank tag ep u, hp =>
    refine h.receive hT ha hs hp hg hstep (k := fun d p =>
      if (d.pk p).context.proto = .rts then some (recvRts d ep u p) else recvData env d src ep u p) rfl fun d q hq => ?_
    exact if_pos hq
  | .cqPop ep, _ => exact h.call_other ha (.inl ⟨ep, rfl⟩)
  | .cqReqfree env rp, _ => exact h.call_other ha (.inr (.inl ⟨env, rp, rfl⟩))
  | .refill env, _ => exact h.call_other ha (.inr (.inr ⟨env, rfl⟩))

end Invariant

end Lci.Server.Rendezvous
