/-
Exactly-once completion of long messages, for whole jobs: from the start of every rank, along every run of
calls, arrivals, writes, immediates and completions in any order, the devices follow the protocol of
`Server.Rendezvous`. A receive with tag -1 breaks it: it finds the slot of a packet that waits already.
-/
import Lci.Server.Backpressure
import Lci.Server.Completions

namespace Lci.Server.Rendezvous

open Lci.Hash Lci.Proto History

/-! ## Runs -/

/-- A job at its start: every rank has initialised its device, nothing is in flight and nothing has happened. -/
structure Job.Starts (j₀ : Job) : Prop where
  node : ∀ r, ∃ d₀ wid d, Fresh d₀ ∧ lciDevInit wid d₀ = some d ∧ j₀.node r = ⟨d, [], []⟩
  flight : j₀.flight = []
  pending : j₀.pending = []
  log : j₀.log = []

/-- A property of every step of a run, in the job it finds. -/
def Job.Along (T : Nat → Transfer) (P : Job → Act → Prop) : Job → List Act → Prop
  | _, [] => True
  | j, a :: acts => P j a ∧ ∀ j', j.step T a = some j' → Job.Along T P j' acts

/-- A run of what the application and the transport do, in which no step meets a slip of the code. -/
def Job.SoundRun (T : Nat → Transfer) : Job → List Act → Prop := Job.Along T fun j a => Allowed j a ∧ Sound j a

/-- Long messages in a job that started as `j₀`: a transfer has at most one completion event and at most one callback,
each after what it is to come after; the memories are what was written, so that data is there until its bytes are
written again; and a write in flight names a packet of its target that waits for it, whose request has its buffer. -/
structure ExactlyOnce (T : Nat → Transfer) (j₀ j : Job) : Prop where
  once : ∀ x, j.log.countP (Rec.completes x) ≤ 1 ∧ j.log.countP (Rec.calls x) ≤ 1
  after : Each (After T (start j₀)) j.log
  mem : ∀ r, (j.node r).dev.mem = replay r (start j₀ r) j.log
  read : ∀ k x a k', j.log = k ++ .wrote (T x).tgt a (payload T (start j₀) k x) x :: k' →
    (∀ v ∈ k', v.Spares (T x).tgt a (T x).size) →
    readMem (j.node (T x).tgt).dev.mem a (T x).size = payload T (start j₀) k x
  names : ∀ w ∈ j.flight, ∀ t src addr rkey size sid, w.msg = .rma t src addr rkey size sid → t = (T w.xfer).tgt ∧
    ∃ q ∈ (j.node t).owed, pktAt (j.node t).dev.pageSize sid.toNat = some q ∧ xf (j.node t) q = w.xfer ∧
      ((j.node t).dev.reqOf q).buffer = addr

section Runs

variable {T : Nat → Transfer} {P Q : Job → Act → Prop} {j j' : Job}

theorem Job.Along.cons {a : Act} {acts : List Act} (h : P j a) (hs : j.step T a = some j') (hrest : j'.Along T P acts) :
    j.Along T P (a :: acts) := by
  refine ⟨h, fun k hk => ?_⟩
  rw [hs] at hk
  cases hk
  exact hrest

theorem Job.run_append (j : Job) (as bs : List Act) : j.run T (as ++ bs) = (j.run T as).bind fun k => k.run T bs := by
  induction as generalizing j with
  | nil => rfl
  | cons a as ih =>
    rw [List.cons_append, Job.run, Job.run, Option.bind_assoc]
    exact congrArg _ (funext ih)

theorem Job.Along.append (hPQ : ∀ j a, P j a → Q j a) {as bs : List Act} (h : j.Along T P as)
    (hr : j.run T as = some j') (h' : j'.Along T Q bs) : j.Along T Q (as ++ bs) := by
  induction as generalizing j with
  | nil =>
    cases hr
    exact h'
  | cons a as ih =>
    obtain ⟨k, hk, hr⟩ := Option.bind_eq_some_iff.1 hr
    exact Job.Along.cons (hPQ _ _ h.1) hk (ih (h.2 k hk) hr)

/-- Only the arrival of an immediate is kept as one. -/
theorem Job.step_imm {a : Act} (ha : ∀ env p w, a ≠ .imm env p w) (hs : j.step T a = some j') {t : CInt} {q : PktId}
    {x : Nat} (hm : .imm t q x ∈ j'.log) : .imm t q x ∈ j.log := by
  -- the records of a step are its own and those of the events it raises
  have hmoves : ∀ {k : Job} {r : CInt} {s : Sys} {recs : List Rec}, k.moves r s recs = j' → k.log = j.log →
    .imm t q x ∉ recs →
      .imm t q x ∈ j.log := by
    rintro k r s recs rfl hk hrecs
    rw [← hk]
    rcases List.mem_append.1 hm with hm | hm
    · exact hm
    · rcases List.mem_append.1 hm with hm | hm
      · exact absurd hm hrecs
      · obtain ⟨v, -, hv⟩ := List.mem_map.1 hm
        cases hv
  cases a with
  | sendl env y =>
    unfold Job.step at hs
    obtain ⟨s, -, hj⟩ := Option.map_eq_some_iff.1 hs
    refine hmoves hj rfl ?_
    split_ifs <;> simp
  | call r op =>
    obtain ⟨s, -, hj⟩ := Option.map_eq_some_iff.1 hs
    exact hmoves hj rfl (by simp)
  | arrive env p w =>
    obtain ⟨op, -, hs⟩ := Option.bind_eq_some_iff.1 hs
    obtain ⟨s, -, hj⟩ := Option.map_eq_some_iff.1 hs
    exact hmoves hj rfl (by simp)
  | write w =>
    unfold Job.step at hs
    dsimp only at hs
    split at hs
    · rename_i hmsg
      cases hs
      rcases List.mem_append.1 hm with hm | hm
      · exact hm
      · unfold wroteRec at hm
        rw [hmsg] at hm
        simp at hm
    · cases hs
  | imm env p w => exact absurd rfl (ha env p w)
  | sent r env p =>
    obtain ⟨w, -, hs⟩ := Option.bind_eq_some_iff.1 hs
    obtain ⟨s, -, hj⟩ := Option.map_eq_some_iff.1 hs
    exact hmoves hj rfl (by simp)

theorem Job.run_imm {acts : List Act} (ha : ∀ env p w, .imm env p w ∉ acts) (hr : j.run T acts = some j') {t : CInt}
    {q : PktId} {x : Nat} (hm : .imm t q x ∈ j'.log) : .imm t q x ∈ j.log := by
  induction acts generalizing j with
  | nil =>
    cases hr
    exact hm
  | cons a acts ih =>
    obtain ⟨k, hk, hr⟩ := Option.bind_eq_some_iff.1 hr
    refine Job.step_imm (fun env p w he => ha env p w (he ▸ List.mem_cons_self)) hk (ih (fun env p w hw => ?_) hr)
    exact ha env p w (List.mem_cons_of_mem _ hw)

end Runs

/-! ## The invariant along a run -/

section Run

variable {T : Nat → Transfer} {j₀ j : Job} {st : Nat → Stage}

/-- The step lemma. -/
theorem Inv.step (h : Inv T j₀ j st) (hA : Abs.Inv T (start j₀) ⟨st, j.log⟩) (hT : Valid T j₀) {a : Act}
    (ha : Allowed j a) (hs : Sound j a) : Follows T j₀ j st (j.step T a) := by
  cases a with
  | sendl env x => exact h.sendl hA env ha
  | call r op => exact h.call hT.org ha.1 ha.2 hs
  | arrive env p w => exact h.arrive hT ha hs
  | write w => exact h.write hT ha
  | imm env p w => exact h.imm hT ha hs
  | sent r env p => exact h.sent ha

/-- The run lemma. -/
theorem Inv.run (h : Inv T j₀ j st) (hA : Abs.Inv T (start j₀) ⟨st, j.log⟩) (hT : Valid T j₀) {acts : List Act}
    (ha : j.SoundRun T acts) : ∃ j' st', j.run T acts = some j' ∧ Inv T j₀ j' st' ∧
    Abs.Inv T (start j₀) ⟨st', j'.log⟩ := by
  induction acts generalizing j st with
  | nil => exact ⟨j, st, rfl, h, hA⟩
  | cons a acts ih =>
    obtain ⟨⟨hallowed, hsound⟩, hrest⟩ := ha
    obtain ⟨j₁, st₁, h₁, hI, hsteps⟩ := h.step hA hT hallowed hsound
    obtain ⟨j', st', hrun, hI', hA'⟩ := ih hI (hA.steps hsteps) (hrest j₁ h₁)
    refine ⟨j', st', ?_, hI', hA'⟩
    rw [Job.run, h₁]
    exact hrun

/-- At the start no transfer has begun. -/
theorem Job.Starts.inv (h : j₀.Starts) (T : Nat → Transfer) : Inv T j₀ j₀ fun _ => .fresh := by
  have hnode : ∀ r, Good (j₀.node r) ∧ (j₀.node r).owed = [] ∧ (j₀.node r).dev.sends = [] ∧
      ∀ e b, entries (j₀.node r).dev e b = [] := by
    intro r
    obtain ⟨d₀, wid, d, hf, hd, hr⟩ := h.node r
    obtain ⟨heps, hsends⟩ : d.eps = d₀.eps ∧ d.sends = [] := by
      rw [lciDevInit_eq] at hd
      cases hd
      obtain ⟨h1, -, -, -, h5, -⟩ := serverInit_spec d₀
      exact ⟨h1, h5⟩
    rw [hr]
    refine ⟨hf.good hd, rfl, hsends, fun e b => ?_⟩
    obtain ⟨ar, ce, glob, he, -⟩ := hf.eps e
    exact entries_fresh (by rw [heps]; exact he) b
  refine ⟨fun r => (hnode r).1, fun r => ⟨rfl, rfl, fun _ => rfl⟩, fun r => ?_, fun r => ?_, fun r => ?_, ?_,
    fun r => ?_⟩
  · obtain ⟨-, ho, hs, he⟩ := hnode r
    refine ⟨fun e b y hy => ?_, fun e b y hy => ?_, fun q hq => ?_, fun x q buf a b hf => by cases hf⟩
    · rw [he] at hy
      cases hy
    · rw [he] at hy
      cases hy
    · rw [ho, hs] at hq
      simp at hq
  · obtain ⟨-, -, hs, -⟩ := hnode r
    refine ⟨fun p hp => ?_, fun x p hp => by cases hp⟩
    rw [hs] at hp
    cases hp
  · obtain ⟨-, -, hs, -⟩ := hnode r
    refine ⟨?_, fun w hw => ?_⟩
    · rw [h.pending, hs]
      rfl
    · rw [h.pending] at hw
      cases hw
  · refine ⟨fun w hw => ?_, ?_, fun x hx => absurd rfl hx⟩
    · rw [h.flight] at hw
      cases hw
    · rw [h.flight]
      exact List.nodup_nil
  · rw [h.log]
    rfl

theorem Job.Starts.run (h₀ : j₀.Starts) (hT : Valid T j₀) {acts : List Act} (ha : j₀.SoundRun T acts) :
    ∃ j st, j₀.run T acts = some j ∧ Inv T j₀ j st ∧ Abs.Inv T (start j₀) ⟨st, j.log⟩ := by
  have hA : Abs.Inv T (start j₀) ⟨fun _ => .fresh, j₀.log⟩ := by
    rw [h₀.log]
    exact Abs.inv_init
  exact (h₀.inv T).run hA hT ha

/-- The target of a write that is on its way waits for it. -/
theorem Inv.names (h : Inv T j₀ j st) {w : Wire} (hw : w ∈ j.flight) {t : CInt} {src : Nat} {addr : Buf}
    {rkey : BitVec 32}
    {size : Nat} {sid : BitVec 32} (hm : w.msg = .rma t src addr rkey size sid) : t = (T w.xfer).tgt ∧
    ∃ q ∈ (j.node t).owed, pktAt (j.node t).dev.pageSize sid.toNat = some q ∧ xf (j.node t) q = w.xfer ∧
      ((j.node t).dev.reqOf q).buffer = addr := by
  obtain ⟨q, buf, hU⟩ := h.underway hw hm
  have heq := hm.symm.trans hU.msg
  simp only [Msg.rma.injEq] at heq
  obtain ⟨rfl, -, rfl, -, -, rfl⟩ := heq
  obtain ⟨rtr, hst⟩ := hU.waits
  obtain ⟨-, -, -, hxf, -, -, hbuf⟩ := (h.tgt _).waiting w.xfer q buf rtr true hst rfl
  exact ⟨rfl, q, hU.owed, pktAt_word (h.good _).page hU.lt, hxf, hbuf⟩

/-- From the start of a job, in every run that meets no slip, every long message is completed at most once on both
sides, and not too early. -/
theorem exactly_once (h₀ : j₀.Starts) (hT : Valid T j₀) {acts : List Act} (ha : j₀.SoundRun T acts) :
    ∃ j, j₀.run T acts = some j ∧ ExactlyOnce T j₀ j := by
  obtain ⟨j, st, hrun, hI, hA⟩ := h₀.run hT ha
  refine ⟨j, hrun, hA.at_most_once, hA.after, hI.mem, ?_, ?_⟩
  · intro k x a k' hlog hk
    rw [hI.mem, hlog]
    exact placed_read hk
  · intro w hw t src addr rkey size sid hm
    exact hI.names hw hm

end Run

/-! ## A granted transfer can be completed -/

section Completes

variable {T : Nat → Transfer} {j₀ j : Job} {x : Nat} {q p : PktId} {buf : Nat} {rtr : Bool} {phase : Phase}
  {ctx : Option PktId}

variable (T j₀) in
/-- Job `j` follows the protocol, and its transfer `x` is in stage `σ`. -/
def InStage (j : Job) (x : Nat) (σ : Stage) : Prop :=
  ∃ st, Inv T j₀ j st ∧ Abs.Inv T (start j₀) ⟨st, j.log⟩ ∧ st x = σ

theorem Leads.inStage {st : Nat → Stage} {σ : Stage} {r : Option Job} (h : Leads T j₀ j st x σ r)
    (hA : Abs.Inv T (start j₀) ⟨st, j.log⟩) : ∃ j', r = some j' ∧ InStage T j₀ j' x σ := by
  obtain ⟨j', hr, hI, hs⟩ := h
  exact ⟨j', hr, _, hI, hA.step hs, Function.update_self _ _ _⟩

theorem Job.arrive_node {j' : Job} {env : Env} {w : Wire} (h : j.step T (.arrive env p w) = some j') {r : CInt}
    (hr : r ≠ w.dst) : j'.node r = j.node r := by
  obtain ⟨op, -, h⟩ := Option.bind_eq_some_iff.1 h
  obtain ⟨s, -, rfl⟩ := Option.map_eq_some_iff.1 h
  exact Function.update_of_ne hr _ _

theorem Job.write_posted {j' : Job} {w : Wire} (h : j.step T (.write w) = some j') (r : CInt) :
    (j'.node r).dev.posted = (j.node r).dev.posted := by
  unfold Job.step at h
  dsimp only at h
  split at h
  · rename_i t _ _ _ _ _ _
    cases h
    by_cases hr : r = t
    · subst hr
      show (Function.update j.node r _ r).dev.posted = _
      rw [Function.update_self]
    · exact congrArg (fun s : Sys => s.dev.posted) (Function.update_of_ne hr _ _)
  · cases h

theorem allowed_arrive {j : Job} {env : Env} {p : PktId} {w : Wire} (hw : w ∈ j.flight)
    (hm : ∃ t word size data, w.msg = .send t word size data) (hb : (j.node w.dst).dev.backend = .ibv)
    (hp : p ∈ (j.node w.dst).dev.posted.filterMap Post.ctx) : Allowed j (.arrive env p w) := by
  refine ⟨hw, hm, ?_⟩
  rw [hb]
  exact hp

/-- The RTR arrives in a packet of the origin. -/
theorem InStage.respond (h : InStage T j₀ j x (.granted q buf rtr)) (hT : Valid T j₀)
    (hb : (j.node (T x).org).dev.backend = .ibv) (hp : p ∈ (j.node (T x).org).dev.posted.filterMap Post.ctx)
    (env : Env) : ∃ w j', (Allowed j (.arrive env p w) ∧ Sound j (.arrive env p w)) ∧
      j.step T (.arrive env p w) = some j' ∧ InStage T j₀ j' x (.written q buf rtr .posted (some p)) ∧
      ∀ r, r ≠ (T x).org → j'.node r = j.node r := by
  obtain ⟨st, hI, hA, hst⟩ := h
  obtain ⟨w, hw, hwx⟩ := hI.net.all x (by rw [hst]; simp [Stage.net])
  have hs := hI.net.sails w hw
  rw [hwx, hst] at hs
  change Sails T _ _ x (.rtr q buf) w at hs
  obtain ⟨hdst, hmsg⟩ : w.dst = (T x).org ∧ ∃ t word size data, w.msg = .send t word size data := by
    cases hs
    exact ⟨rfl, _, _, _, _, rfl⟩
  rw [← hdst] at hb hp ⊢
  have ha : Allowed j (.arrive env p w) := allowed_arrive hw hmsg hb hp
  have hsound : Sound j (.arrive env p w) := by
    intro y m hm
    obtain ⟨t, word, size, data, hmsg⟩ := hmsg
    unfold recvOp at hm
    rw [hmsg, hb] at hm
    cases hm
  subst hwx
  obtain ⟨j', hstep, hj'⟩ := (hI.arriveRtr hT ha hsound hst).inStage hA
  exact ⟨w, j', ⟨ha, hsound⟩, hstep, hj', fun r hr => Job.arrive_node hstep hr⟩

/-- The data is put in the memory of the target. -/
theorem InStage.place (h : InStage T j₀ j x (.written q buf rtr .posted ctx)) (hT : Valid T j₀)
    (hb : (j.node (T x).tgt).dev.backend = .ibv) : ∃ w j', (Allowed j (.write w) ∧ Sound j (.write w)) ∧
      j.step T (.write w) = some j' ∧ InStage T j₀ j' x (.written q buf rtr .placed ctx) ∧
      ∀ r, (j'.node r).dev.posted = (j.node r).dev.posted := by
  obtain ⟨st, hI, hA, hst⟩ := h
  obtain ⟨w, hw, hwx⟩ := hI.net.all x (by rw [hst]; simp [Stage.net, Phase.net])
  have hs := hI.net.sails w hw
  rw [hwx, hst] at hs
  change Sails T _ _ x (.write q buf) w at hs
  obtain ⟨hdst, hplaced, hmsg⟩ : w.dst = (T x).tgt ∧ w.placed = false ∧
      ∃ t src addr rkey size sid, w.msg = .rma t src addr rkey size sid := by
    cases hs
    exact ⟨rfl, rfl, _, _, _, _, _, _, rfl⟩
  rw [← hdst] at hb
  have ha : Allowed j (.write w) := ⟨hw, hmsg, hplaced, hb⟩
  subst hwx
  obtain ⟨j', hstep, hj'⟩ := (hI.place hT ha hst).inStage hA
  exact ⟨w, j', ⟨ha, trivial⟩, hstep, hj', Job.write_posted hstep⟩

/-- The immediate arrives in a packet of the target. -/
theorem InStage.land (h : InStage T j₀ j x (.written q buf rtr .placed ctx)) (hT : Valid T j₀)
    (hb : (j.node (T x).tgt).dev.backend = .ibv) (hp : p ∈ (j.node (T x).tgt).dev.posted.filterMap Post.ctx)
    (env : Env) : ∃ w j', (Allowed j (.imm env p w) ∧ Sound j (.imm env p w)) ∧
      j.step T (.imm env p w) = some j' ∧ InStage T j₀ j' x (.written q buf rtr .landed ctx) := by
  obtain ⟨st, hI, hA, hst⟩ := h
  obtain ⟨w, hw, hwx⟩ := hI.net.all x (by rw [hst]; simp [Stage.net, Phase.net])
  have hs := hI.net.sails w hw
  rw [hwx, hst] at hs
  change Sails T _ _ x (.imm q buf) w at hs
  obtain ⟨hdst, hplaced, t, src, addr, rkey, size, sid, hmsg⟩ : w.dst = (T x).tgt ∧ w.placed = true ∧
      ∃ t src addr rkey size sid, w.msg = .rma t src addr rkey size sid := by
    cases hs
    exact ⟨rfl, rfl, _, _, _, _, _, _, rfl⟩
  subst hwx
  obtain ⟨q', buf', hU⟩ := hI.underway hw hmsg
  obtain ⟨rtr', ctx', hst'⟩ := hU.stage
  obtain ⟨rfl, rfl, -⟩ : q = q' ∧ buf = buf' ∧ _ := by simpa using hst.symm.trans hst'
  have ha : Allowed j (.imm env p w) := by
    refine ⟨hw, t, src, addr, rkey, size, sid, hmsg, ?_⟩
    rw [hdst, hb]
    exact ⟨hplaced, hp⟩
  have hsound : Sound j (.imm env p w) := by
    intro y m hm
    unfold immOp at hm
    rw [hmsg, hdst, hb] at hm
    cases hm
  obtain ⟨j', hstep, hj'⟩ := (hI.immIbv hT hU hb hplaced hp hst).inStage hA
  exact ⟨w, j', ⟨ha, hsound⟩, hstep, hj'⟩

/-- The send of the RTR is completed. -/
theorem InStage.sentRtr (h : InStage T j₀ j x (.written q buf true phase ctx)) (env : Env) :
    ∃ j', (Allowed j (.sent (T x).tgt env q) ∧ Sound j (.sent (T x).tgt env q)) ∧
      j.step T (.sent (T x).tgt env q) = some j' ∧ InStage T j₀ j' x (.written q buf false phase ctx) := by
  obtain ⟨st, hI, hA, hst⟩ := h
  obtain ⟨-, w2, -, w4, w5, -⟩ := (hI.tgt (T x).tgt).waiting x q buf true (phase ≠ .landed)
    (by rw [hst]; simp [Stage.tgt]) rfl
  have hq := w2.1 rfl
  obtain ⟨j', hstep, hj'⟩ := (hI.sentRtr hq w5).inStage hA
  rw [w4, hst] at hj'
  exact ⟨j', ⟨hq, trivial⟩, hstep, hj'⟩

/-- The write is completed. -/
theorem InStage.sentWrite (h : InStage T j₀ j x (.written q buf rtr phase (some p))) (env : Env) :
    ∃ j', (Allowed j (.sent (T x).org env p) ∧ Sound j (.sent (T x).org env p)) ∧
      j.step T (.sent (T x).org env p) = some j' ∧ InStage T j₀ j' x (.written q buf rtr phase none) := by
  obtain ⟨st, hI, hA, hst⟩ := h
  obtain ⟨hp, hk, hxf⟩ := (hI.org (T x).org).holds x p (by rw [hst]; rfl) rfl
  have hl := hI.sentOther env hp (by rw [hk]; simp)
  rw [if_pos hk, hxf, hst] at hl
  obtain ⟨j', hstep, hj'⟩ := hl.inStage hA
  exact ⟨j', ⟨hp, trivial⟩, hstep, hj'⟩

/-- From every state in which the origin and the target have a receive posted, a transfer whose RTR is on its way can
be completed, and then both sides have been told, once. -/
theorem InStage.completes (h : InStage T j₀ j x (.granted q buf true)) (hT : Valid T j₀)
    (hb : ∀ r, (j₀.node r).dev.backend = .ibv) (hne : (T x).org ≠ (T x).tgt) {p' : PktId}
    (hp : p ∈ (j.node (T x).org).dev.posted.filterMap Post.ctx)
    (hp' : p' ∈ (j.node (T x).tgt).dev.posted.filterMap Post.ctx) :
    ∃ acts j', j.SoundRun T acts ∧ j.run T acts = some j' ∧ j'.log.countP (Rec.completes x) = 1 ∧
      j'.log.countP (Rec.calls x) = 1 := by
  have hib : ∀ {k : Job} {σ : Stage}, InStage T j₀ k x σ → ∀ r, (k.node r).dev.backend = .ibv := by
    rintro k σ ⟨st, hI, -⟩ r
    exact (hI.fixed r).2.1.trans (hb r)
  let env : Env := ⟨0, 0, 0⟩
  obtain ⟨w₁, j₁, ha₁, hs₁, h₁, hn⟩ := h.respond hT (hib h _) hp env
  obtain ⟨w₂, j₂, ha₂, hs₂, h₂, hposted⟩ := h₁.place hT (hib h₁ _)
  have hp₂ : p' ∈ (j₂.node (T x).tgt).dev.posted.filterMap Post.ctx := by
    rw [hposted, hn _ hne.symm]
    exact hp'
  obtain ⟨w₃, j₃, ha₃, hs₃, h₃⟩ := h₂.land hT (hib h₂ _) hp₂ env
  obtain ⟨j₄, ha₄, hs₄, h₄⟩ := h₃.sentRtr env
  obtain ⟨j₅, ha₅, hs₅, st, -, hA, hst⟩ := h₄.sentWrite env
  refine ⟨[.arrive env p w₁, .write w₂, .imm env p' w₃, .sent (T x).tgt env q, .sent (T x).org env p], j₅,
    .cons ha₁ hs₁ (.cons ha₂ hs₂ (.cons ha₃ hs₃ (.cons ha₄ hs₄ (.cons ha₅ hs₅ trivial)))), ?_, ?_, ?_⟩
  · simp only [Job.run, hs₁, hs₂, hs₃, hs₄, hs₅, Option.bind_some]
  · exact (hA.tells x).done.trans (congrArg (fun σ : Stage => σ.done.toNat) hst)
  · exact (hA.tells x).called.trans (congrArg (fun σ : Stage => σ.called.toNat) hst)

end Completes

/-! ## A run -/

/-- The device of rank `r` before its initialisation. -/
def rankDev (r : CInt) : Dev := { rawDev .ibv 4096 .exp .null with me := r }

theorem fresh_rankDev (r : CInt) : Fresh (rankDev r) :=
  ⟨(by decide : 4096 < 2 ^ 30), fun e => ⟨.exp, .null, false, rfl, rfl⟩⟩

/-- Four bytes at address 64 of rank 3 for rank 0, with tag 20567 on endpoint 0. -/
def fourBytes : Nat → Transfer := fun _ => ⟨3, 0, 20567, 0, 64, 4, 7, 9⟩

theorem frame_sendl (env : Env) (d : Dev) (src size : Nat) (rank tag : CInt) (ep cb ce xfer : Nat) :
    Frame d (lcSendl env d src size rank tag ep cb ce xfer).2 := by
  have hget : Frame d (poolGetOrRetn env d).2 := by
    unfold poolGetOrRetn
    split_ifs
    · exact Frame.refl d
    · exact frame_setPool d _
  unfold lcSendl
  generalize poolGetOrRetn env d = o at hget ⊢
  obtain ⟨_ | p, D⟩ := o
  · exact hget
  · exact hget.trans (Frame.of_eq rfl)

/-- A `lc_sendl` that gets a packet sends its RTS. -/
theorem rts_sent {s : Sys} (hg : Good s) (hdead : s.dev.deadlock = false) (htls : s.dev.pool.tls 0 = some 0)
    {l : List PktId} {p₀ : PktId} (hpool : s.dev.pool.lpools = [l ++ [p₀]]) : ∃ s' p v,
    Server.step s (.sendl ⟨0, 0, 0⟩ 64 4 0 20567 0 7 9 0) = some s' ∧
    newWires 3 s s' = [⟨3, p, .send 0 (makeProto 0 .rts 20567) packetRtsSize (.rdz v), 0, false⟩] ∧
    Frame s.dev s'.dev := by
  obtain ⟨loc, use, ho, -⟩ := hg.own
  have hget : (poolGetOrRetn ⟨0, 0, 0⟩ s.dev).1 = some p₀ := by
    rw [poolGetOrRetn, hdead, show s.dev.pool = ⟨s.dev.pool.tls, [l ++ [p₀]]⟩ by rw [← hpool]]
    simp [lcPoolGetNb, lcPoolGetLocal, dqPopTop, htls]
  have hlen : (lcSendl ⟨0, 0, 0⟩ s.dev 64 4 0 20567 0 7 9 0).2.sends.length =
    (poolGetOrRetn ⟨0, 0, 0⟩ s.dev).2.sends.length + 1 := by
    unfold lcSendl
    generalize poolGetOrRetn ⟨0, 0, 0⟩ s.dev = x at hget ⊢
    obtain ⟨_ | p, D⟩ := x
    · cases hget
    · exact List.length_append
  have hsame : (poolGetOrRetn ⟨0, 0, 0⟩ s.dev).2.sends = s.dev.sends := by
    unfold poolGetOrRetn
    split_ifs <;> rfl
  rcases does_sendl ho ⟨0, 0, 0⟩ 64 4 0 20567 0 7 9 0 with h | ⟨p, v, -, h, -, -, -, -, h5, hdata, -⟩
  · have hs := h.sends
    rw [hs, hsame, List.append_nil] at hlen
    omega
  · refine ⟨_, p, v, rfl, ?_, frame_sendl _ _ 64 4 0 20567 0 7 9 0⟩
    rw [newWires_of_does (s := s) (next_of_does h rfl).1]
    show [(⟨3, p, _, xf _ p, false⟩ : Wire)] = _
    have hxf : xf (Sys.next s (lcSendl ⟨0, 0, 0⟩ s.dev 64 4 0 20567 0 7 9 0).2) p = 0 := by
      show ((lcSendl ⟨0, 0, 0⟩ s.dev 64 4 0 20567 0 7 9 0).2.pk p).data.view.xfer = 0
      rw [hdata]
      exact h5
    rw [hxf]
    rfl

/-! ## A receive that finds a packet -/

theorem handleRts_eps (d : Dev) (ep : Nat) (p : PktId) : (lciHandleRts d ep p).eps = d.eps :=
  (rmaReg_rest (lciPkInit d ep (-1) .rtr p) (d.reqOf p).buffer (d.pk p).data.view.size).2.2.2.2.1

/-- A receive that finds a packet sends an RTR with it, whatever the packet is doing. -/
theorem recvl_found {s : Sys} (src size : Nat) {rank tag : CInt} {u : ReqId} {p : PktId} (hps : s.dev.pageSize < 2 ^ 30)
    (hlt : p < LC_SERVER_NUM_PKTS) (hroom : Room s.dev p) {i : Insert Ptr}
    (hi : lcHashInsert .null (s.dev.eps 0).tbl (lcMakeKey rank tag) (.req u) .client = i) (hret : i.ret = 0)
    (hval : i.value = .pkt p) :
    ∃ s' m len n, Server.step s (.recvl src size rank tag 0 u) = some s' ∧
      (∃ t word size data, m = .send t word size data) ∧
      Waiting s.dev s'.dev p ⟨.recvl, src, size, rank, tag, 0, u⟩ len n 2 ∧ s'.dev.sends = s.dev.sends ++ [p] ∧
      s'.dev.out = s.dev.out ++ [m] ∧ s'.owed = s.owed ++ [p] ∧ s'.held = s.held ∧
      s'.dev.eps = (s.dev.setTbl 0 i.table).eps ∧ Frame s.dev s'.dev := by
  generalize hD : (lciInitReq s.dev (.mem src) size (.user u)).setRhandle (.user u) rank = D
  obtain ⟨hpage, hevents, hpool, hpk, heps⟩ : D.pageSize = s.dev.pageSize ∧ D.events = s.dev.events ∧
    D.pool = s.dev.pool ∧
      D.pk = s.dev.pk ∧ D.eps = s.dev.eps := by
    subst hD
    exact ⟨rfl, rfl, rfl, rfl, rfl⟩
  obtain ⟨hsends, hout, hbuf⟩ : D.sends = s.dev.sends ∧ D.out = s.dev.out ∧ (D.req u).buffer = .mem src := by
    subst hD
    exact ⟨rfl, rfl, by simp [Dev.setReq, Dev.setRhandle, lciInitReq]⟩
  have hframe : Frame s.dev D := by
    subst hD
    exact (frame_setReq s.dev (.user u) _).trans (frame_setReq _ _ _)
  have hins : recvInsert D rank tag 0 u = i := by
    rw [recvInsert, heps]
    exact hi
  have hcall : lcRecvl s.dev src size rank tag 0 u = some (recvRts (D.setTbl 0 i.table) 0 u p) := by
    rw [lcRecvl, hD, recvMatch_found _ (by rw [hins]; exact hret) (by rw [hins]; exact hval), hins]
  clear hi hins
  generalize i.table = t at *
  unfold recvRts at hcall
  generalize hE : (D.setTbl 0 t).setSize (.user u) ((D.setTbl 0 t).pk p).data.view.size = E at hcall
  obtain ⟨hpageE, heventsE, hpoolE, hpkE, hepsE⟩ : E.pageSize = s.dev.pageSize ∧ E.events = s.dev.events ∧
    E.pool = s.dev.pool ∧
      E.pk = s.dev.pk ∧ E.eps = (s.dev.setTbl 0 t).eps := by
    subst hE
    refine ⟨hpage, hevents, hpool, hpk, ?_⟩
    show (D.setTbl 0 t).eps = _
    simp only [Dev.setTbl, Dev.setEp, heps]
  obtain ⟨hsendsE, houtE, hbufE⟩ : E.sends = s.dev.sends ∧ E.out = s.dev.out ∧ (E.req u).buffer = .mem src := by
    subst hE
    refine ⟨hsends, hout, ?_⟩
    simpa [Dev.setSize, Dev.setReq, Dev.setTbl, Dev.setEp] using hbuf
  have hframeE : Frame s.dev E := by
    subst hE
    exact (hframe.trans (frame_setTbl D 0 t)).trans (frame_setReq _ _ _)
  clear hE hD hframe
  have hroomE : Room E p := hroom.of_eq E hpoolE (by rw [hpkE]) fun e => by rw [hepsE]; exact (setTbl_cq s.dev 0 t e).1
  -- the RTR is sent: the packet waits for it and for the immediate
  have hwait : Waiting s.dev (lciHandleRts (E.setReqPtr p (.user u)) 0 p) p ⟨.recvl, src, size, rank, tag, 0, u⟩
      (E.pk p).data.view.size (E.req u).size 2 :=
    handleRts_waiting (x := ⟨.recvl, src, size, rank, tag, 0, u⟩) heventsE hroomE hbufE rfl
  obtain ⟨v, hd, -, -, hcomm, -⟩ := does_handleRts (E.setReqPtr p (.user u)) 0 p
  have hstep : Server.step s (.recvl src size rank tag 0 u) =
    some (s.next (lciHandleRts (E.setReqPtr p (.user u)) 0 p)) := by
    show (lcRecvl s.dev src size rank tag 0 u).map s.next = _
    rw [hcall]
    rfl
  have hout' := hd.out
  rw [show (E.setReqPtr p (.user u)).out = s.dev.out from houtE] at hout'
  refine ⟨_, _, _, _, hstep, ⟨_, _, _, _, rfl⟩, hwait, ?_, hout', ?_, rfl, ?_,
    (hframeE.trans (frame_setReqPtr E p (.user u))).trans (frame_handleRts _ 0 p)⟩
  · rw [← hsendsE]
    exact hd.sends
  · show s.owed ++ rtrsSince s.dev _ = _
    unfold rtrsSince
    rw [hout', List.drop_left, List.filterMap_cons, rtrOf_rtr hps hlt _ _ _ _ (hcomm.trans (by rw [← hpageE]; rfl))]
    rfl
  · rw [← hepsE]
    exact handleRts_eps _ _ _

/-- Rank 0 posts two receives and rank 3 one, the RTS of rank 3 arrives in packet 1023 and is stored, and a receive
finds it. -/
def askedFor (w : Wire) : List Act :=
  [.call 0 (.refill ⟨0, 0, 0⟩), .call 0 (.refill ⟨0, 0, 0⟩), .call 3 (.refill ⟨0, 0, 0⟩), .sendl ⟨0, 0, 0⟩ 0,
    .arrive ⟨0, 0, 0⟩ 1023 w, .call 0 (.recvl 128 4 3 20567 0 0)]

theorem good_room {s : Sys} (h : Good s) (p : PktId) : Room s.dev p := by
  obtain ⟨loc, use, ho, -⟩ := h.own
  exact ⟨ho.tls, fun dq => ho.deque_lt, ho.poolid p, ho.cq_lt⟩

/-- The table of endpoint 0 with the RTS packet in it. -/
def storedTable : Table Ptr := (lcHashInsert .null (lcHashCreate .null) (lcMakeKey 3 20567) (.pkt 1023) .server).table

theorem live_stored (b : Fin (2 ^ tblBitSize)) (x : Slot Ptr)
    (hx : x ∈ live (storedTable b).slots) : x.val = .pkt 1023 := by
  rcases live_insert Ptr.null _ _ _ .server (by decide) (by decide) b x hx with hx | hx
  · rw [live_create] at hx
    cases hx
  · exact hx

theorem live_stale (b : Fin (2 ^ tblBitSize)) (x : Slot Ptr) (hx : x ∈ live (staleTable b).slots) : x.val ≠ .req 1 := by
  rcases live_insert Ptr.null _ _ _ .client (by decide) (by decide) b x hx with hx | hx
  · rw [live_stored b x hx]
    simp
  · rw [hx]
    simp

/-- The device of a receiver: it posts packets 1023 and 1022, the RTS with view `v` is stored, and a receive finds
it. -/
structure Receiver (d : Dev) (v : Rdz) (s₀ s₁ s₂ s₃ : Sys) : Prop where
  refill₀ : Server.step ⟨d, [], []⟩ (.refill ⟨0, 0, 0⟩) = some s₀
  few₀ : FewPools d ⟨0, 0, 0⟩
  refill₁ : Server.step s₀ (.refill ⟨0, 0, 0⟩) = some s₁
  few₁ : FewPools s₀.dev ⟨0, 0, 0⟩
  backend : s₁.dev.backend = .ibv
  posted : s₁.dev.posted.filterMap Post.ctx = [1023, 1022]
  stored : Server.step s₁ (.completed ⟨0, 0, 0⟩ ⟨1023, .recv, 3, packetRtsSize, makeProto 0 .rts 20567, .rdz v⟩) =
    some s₂
  idle : Idle s₂ 0
  found : Server.step s₂ (.recvl 128 4 3 20567 0 0) = some s₃
  sends : s₃.dev.sends = [1023]
  owed : s₃.owed = [1023]
  waiting : ∃ len n, Waiting s₂.dev s₃.dev 1023 ⟨.recvl, 128, 4, 3, 20567, 0, 0⟩ len n 2
  table : (s₃.dev.eps 0).tbl = staleTable
  idle' : Idle s₃ 1
  spare : s₃.dev.backend = .ibv ∧ 1022 ∈ s₃.dev.posted.filterMap Post.ctx
  quiet : s₀.dev.sends = [] ∧ s₁.dev.sends = [] ∧ s₂.dev.sends = []
  answer : ∃ t word size data, s₃.dev.out = s₂.dev.out ++ [.send t word size data]

theorem mem_posted_of_frame {d d' : Dev} (h : Frame d d') {p : PktId} (hp : p ∈ d.posted.filterMap Post.ctx) :
    p ∈ d'.posted.filterMap Post.ctx := by
  obtain ⟨l, hl, -⟩ := h.posted
  rw [hl, List.filterMap_append]
  exact List.mem_append_left _ hp

theorem receiver_run {d : Dev} (hd : lciDevInit 0 (rawDev .ibv 4096 .exp .null) = some d) (v : Rdz) :
    ∃ s₀ s₁ s₂ s₃, Receiver d v s₀ s₁ s₂ s₃ := by
  obtain ⟨d', s₀, hd', h₀, hfew, hc₀, hposted₀, hb₀, hbuild, har, hr, htls, -⟩ := calm_posted 0
  obtain rfl : d' = d := Option.some_injective _ (hd'.symm.trans hd)
  have hg₀ : Good s₀ := ((fresh_rankDev 0).good hd).of_step h₀ hfew trivial
  rw [show List.range 1023 = List.range 1022 ++ [1022] from List.range_succ] at hc₀
  obtain ⟨s₁, h₁, hfew₁, hc₁, hposted, hb, -, -, hbuild₁, heps₁, -⟩ := hc₀.refill hb₀ (by rw [hr]; decide) htls
  rw [hposted₀] at hposted
  have hg₁ : Good s₁ := hg₀.of_step h₁ hfew₁ trivial
  have hctx : s₁.dev.posted.filterMap Post.ctx = [1023, 1022] := by
    rw [hposted]
    rfl
  obtain ⟨s₂, h₂, hc₂⟩ := hc₁.stores hg₁ ⟨hbuild₁.symm ▸ hbuild, heps₁.symm ▸ har⟩ ⟨0, 0, 0⟩ 1023
    (x := ⟨.recvl, 128, 4, 3, 20567, 0, 0⟩) rfl (by decide) (by decide) (.rendezvous v [])
  replace hc₂ : Calm s₂ storedTable (List.range 1022) := hc₂
  replace h₂ : Server.step s₁ (.completed ⟨0, 0, 0⟩ ⟨1023, .recv, 3, packetRtsSize, makeProto 0 .rts 20567, .rdz v⟩) =
    some s₂ := h₂
  have harr : Server.Allowed s₁ (.completed ⟨0, 0, 0⟩ ⟨1023, .recv, 3, packetRtsSize, makeProto 0 .rts 20567,
    .rdz v⟩) := by
    refine ⟨hb, ?_, ?_⟩
    · rw [hctx]
      simp
    · show Arrives s₁.dev (makeProto 0 .rts 20567) 3
      exact ⟨by decide, by decide, hg₁.kinds _⟩
  have hg₂ : Good s₂ := hg₁.of_step h₂ harr (by simp [Server.Sound])
  have hidle : Idle s₂ 0 := hc₂.idle fun b x hx => by
    rw [live_stored b x hx]
    simp
  -- the arrival takes the first of the two packets
  have hspare : 1022 ∈ s₂.dev.posted.filterMap Post.ctx ∧ s₂.dev.backend = .ibv := by
    obtain ⟨D, hD, hnext⟩ := Option.map_eq_some_iff.1 h₂
    have hf := frame_ibvServeRecv hD
    obtain rfl : D = s₂.dev := congrArg Sys.dev hnext
    refine ⟨mem_posted_of_frame hf ?_, hf.backend.trans hb⟩
    show 1022 ∈ (s₁.dev.posted.eraseP fun x => x.ctx = some 1023).filterMap Post.ctx
    rw [hposted]
    decide
  -- the receive takes the packet of the RTS, and leaves a free slot that still names it
  have hfound : (lcHashInsert Ptr.null storedTable (lcMakeKey 3 20567) (.req 0) .client).ret = 0 ∧
      (lcHashInsert Ptr.null storedTable (lcMakeKey 3 20567) (.req 0) .client).value = .pkt 1023 := by decide +kernel
  obtain ⟨s₃, m, len, n, h₃, hm, hw, hsends, hout, howed, hheld, heps, hframe⟩ :=
    recvl_found 128 4 (u := 0) hg₂.page (by decide) (good_room hg₂ 1023)
    (congrArg (fun t => lcHashInsert .null t (lcMakeKey 3 20567) (.req 0) .client) hc₂.tbl) hfound.1 hfound.2
  replace heps : s₃.dev.eps = (s₂.dev.setTbl 0 staleTable).eps := heps
  rw [hc₂.sends, List.nil_append] at hsends
  rw [hc₂.owed, List.nil_append] at howed
  refine ⟨s₀, s₁, s₂, s₃, h₀, hfew, h₁, hfew₁, hb, hctx, h₂, hidle, h₃, hsends, howed, ⟨len, n, hw⟩, ?_,
    ⟨fun e b x hx => ?_, fun e => ?_, ?_, fun p hp => ?_⟩,
    ⟨hframe.backend.trans hspare.2, mem_posted_of_frame hframe hspare.1⟩, ⟨hc₀.sends, hc₁.sends, hc₂.sends⟩, ?_⟩
  · rw [heps, setTbl_tbl]
  · unfold entries at hx
    rw [heps] at hx
    by_cases he : e = 0
    · subst he
      rw [setTbl_tbl] at hx
      exact live_stale b x hx
    · rw [show ((s₂.dev.setTbl 0 staleTable).eps e).tbl = lcHashCreate .null by
        simpa [Dev.setTbl, Dev.setEp, he] using hc₂.others e he, live_create] at hx
      cases hx
  · rw [heps, (setTbl_cq _ _ _ _).1, (hc₂.kind e).2.2]
    simp
  · rw [hheld, hc₂.held]
    simp
  · obtain rfl : p = 1023 := by
      rw [howed, hsends] at hp
      rcases hp with hp | ⟨hp, -⟩
      · exact List.mem_singleton.1 hp
      · exact List.mem_singleton.1 hp
    rw [hw.req]
    simp
  · obtain ⟨t, word, size, data, rfl⟩ := hm
    exact ⟨t, word, size, data, hout⟩

/-- Rank 3 as the sender: it posts packet 1023, and then its `lc_sendl` sends an RTS. -/
theorem sender_run {d : Dev} (hd : lciDevInit 0 (rankDev 3) = some d) : ∃ t s p v,
    Server.step ⟨d, [], []⟩ (.refill ⟨0, 0, 0⟩) = some t ∧ FewPools d ⟨0, 0, 0⟩ ∧ t.dev.sends = [] ∧
    Server.step t (.sendl ⟨0, 0, 0⟩ 64 4 0 20567 0 7 9 0) = some s ∧
    newWires 3 t s = [⟨3, p, .send 0 (makeProto 0 .rts 20567) packetRtsSize (.rdz v), 0, false⟩] ∧
    1023 ∈ s.dev.posted.filterMap Post.ctx := by
  obtain ⟨d', t, hd', ht, hfew, hc, hposted, -, -, -, -, htls, hdead⟩ := calm_posted 3
  obtain rfl : d' = d := Option.some_injective _ (hd'.symm.trans hd)
  have hg : Good t := ((fresh_rankDev 3).good hd).of_step ht hfew trivial
  have hpool : t.dev.pool.lpools = [List.range 1022 ++ [1022]] := by rw [hc.pool, List.range_succ]
  obtain ⟨s, p, v, hs, hwires, hframe⟩ := rts_sent hg hdead htls hpool
  refine ⟨t, s, p, v, ht, hfew, hc.sends, hs, hwires, mem_posted_of_frame hframe ?_⟩
  rw [hposted]
  decide

theorem newEvents_no_start (r : CInt) (s s' : Sys) (x : Nat) : .started x ∉ newEvents r s s' := by
  intro hm
  obtain ⟨v, -, hv⟩ := List.mem_map.1 hm
  cases hv

theorem Job.moves_self (j : Job) (r : CInt) (s : Sys) (recs : List Rec) : (j.moves r s recs).node r = s :=
  Function.update_self ..

theorem Job.moves_of_ne (j : Job) {r r' : CInt} (h : r' ≠ r) (s : Sys) (recs : List Rec) :
    (j.moves r s recs).node r' = j.node r' :=
  Function.update_of_ne h ..

theorem Job.call_eq {T : Nat → Transfer} {j : Job} {r : CInt} {op : Op} {s : Sys}
    (h : Server.step (j.node r) op = some s) :
    j.step T (.call r op) = some (j.moves r s []) := by
  unfold Job.step
  dsimp only
  rw [h, Option.map_some]

theorem valid_fourBytes {d : CInt → Dev} (hd : ∀ r, lciDevInit 0 (rankDev r) = some (d r)) :
    Valid fourBytes ⟨fun r => ⟨d r, [], []⟩, [], [], []⟩ := by
  refine ⟨fun _ => (by decide : 4 < 2 ^ 32), fun _ => (by decide : (3 : CInt).toNat < 2 ^ 31),
    fun _ => (by decide : (0 : CInt).toNat < 2 ^ 31), fun _ => (by decide : 0 < 2 ^ 14), fun x r => ?_⟩
  have heps : (d r).eps = (rankDev r).eps := by
    have hr := hd r
    rw [lciDevInit_eq] at hr
    rw [← Option.some_injective _ hr]
    exact (serverInit_spec _).1
  show ((d r).eps _).ar ≠ .imm
  rw [heps]
  simp [rankDev, rawDev, lciEpOpen]

/-- A job with the RTR of packet 1023 on its way, after a run from `j₀`. -/
structure Granted (j₀ : Job) (w : Wire) (j : Job) : Prop where
  starts : j₀.Starts
  valid : Valid fourBytes j₀
  backend : ∀ r, (j₀.node r).dev.backend = .ibv
  sound : j₀.SoundRun fourBytes (askedFor w)
  run : j₀.run fourBytes (askedFor w) = some j
  sends : (j.node 0).dev.sends = [1023]
  owed : (j.node 0).owed = [1023]
  table : ((j.node 0).dev.eps 0).tbl = staleTable
  idle : Idle (j.node 0) 1
  flight : ∀ v ∈ j.flight, ∃ t word size data, v.msg = .send t word size data
  posted : 1022 ∈ (j.node 0).dev.posted.filterMap Post.ctx ∧ 1023 ∈ (j.node 3).dev.posted.filterMap Post.ctx

theorem mem_newWires {r : CInt} {s s' : Sys} {ms : List Msg} (h : s'.dev.out = s.dev.out ++ ms) {w : Wire}
    (hw : w ∈ newWires r s s') : w.msg ∈ ms := by
  unfold newWires at hw
  rw [h, List.drop_left] at hw
  obtain ⟨x, hx, rfl⟩ := List.mem_map.1 hw
  exact (List.of_mem_zip hx).2

/-- The job of the receiver and the sender, with the RTR of packet 1023 on its way. -/
theorem granted_run : ∃ j₀ w j, Granted j₀ w j := by
  choose d hd using fun r => (⟨_, lciDevInit_eq 0 (rankDev r)⟩ : ∃ d, lciDevInit 0 (rankDev r) = some d)
  let j₀ : Job := ⟨fun r => ⟨d r, [], []⟩, [], [], []⟩
  have hstart : ∀ r, (d r).sends = [] ∧ (d r).backend = .ibv := by
    intro r
    have hr := hd r
    rw [lciDevInit_eq] at hr
    rw [← Option.some_injective _ hr]
    exact ⟨rfl, rfl⟩
  obtain ⟨t, s, p, v, ht, hfew₃, hq₃, hs, hwires, hposted₃⟩ := sender_run (hd 3)
  obtain ⟨s₀, s₁, s₂, s₃, hr⟩ := receiver_run (hd 0) v
  let w : Wire := ⟨3, p, .send 0 (makeProto 0 .rts 20567) packetRtsSize (.rdz v), 0, false⟩
  let k₀ : Job := j₀.moves 0 s₀ []
  let k₁ : Job := k₀.moves 0 s₁ []
  let j₁ : Job := k₁.moves 3 t []
  let j₂ : Job := j₁.moves 3 s [.started 0]
  let j₃ : Job := ({ j₂ with flight := j₂.flight.erase w } : Job).moves 0 s₂ []
  let j₄ : Job := j₃.moves 0 s₃ []
  have hne : (3 : CInt) ≠ 0 := by decide
  have hn₀ : k₀.node 0 = s₀ := j₀.moves_self 0 s₀ []
  have hn : k₁.node 0 = s₁ := k₀.moves_self 0 s₁ []
  have hn' : k₁.node 3 = ⟨d 3, [], []⟩ := (k₀.moves_of_ne hne s₁ []).trans (j₀.moves_of_ne hne s₀ [])
  have hn₁ : j₁.node 0 = s₁ := (k₁.moves_of_ne hne.symm t []).trans hn
  have hn₁' : j₁.node 3 = t := k₁.moves_self 3 t []
  have hn₂ : j₂.node 0 = s₁ := (j₁.moves_of_ne hne.symm s [.started 0]).trans hn₁
  have hn₃ : j₃.node 0 = s₂ := Job.moves_self _ 0 s₂ []
  have hn₄ : j₄.node 0 = s₃ := j₃.moves_self 0 s₃ []
  have hn₄' : j₄.node 3 = s :=
    (j₃.moves_of_ne hne s₃ []).trans ((Job.moves_of_ne _ hne s₂ []).trans (j₁.moves_self 3 s [.started 0]))
  have hstep₀ : j₀.step fourBytes (.call 0 (.refill ⟨0, 0, 0⟩)) = some k₀ := Job.call_eq hr.refill₀
  have hstep₁ : k₀.step fourBytes (.call 0 (.refill ⟨0, 0, 0⟩)) = some k₁ :=
    Job.call_eq (by rw [hn₀]; exact hr.refill₁)
  have hstep' : k₁.step fourBytes (.call 3 (.refill ⟨0, 0, 0⟩)) = some j₁ := Job.call_eq (by rw [hn']; exact ht)
  have hstep₂ : j₁.step fourBytes (.sendl ⟨0, 0, 0⟩ 0) = some j₂ := by
    unfold Job.step
    dsimp only [fourBytes]
    rw [hn₁', hs, Option.map_some, hwires]
    rfl
  have hop : recvOp (j₂.node w.dst).dev.backend ⟨0, 0, 0⟩ 1023 w =
      some (.completed ⟨0, 0, 0⟩ ⟨1023, .recv, 3, packetRtsSize, makeProto 0 .rts 20567, .rdz v⟩) := by
    show recvOp (j₂.node 0).dev.backend ⟨0, 0, 0⟩ 1023 w = _
    rw [hn₂, hr.backend]
    rfl
  have hstep₃ : j₂.step fourBytes (.arrive ⟨0, 0, 0⟩ 1023 w) = some j₃ := by
    show (recvOp (j₂.node w.dst).dev.backend ⟨0, 0, 0⟩ 1023 w).bind _ = _
    rw [hop, Option.bind_some]
    show (Server.step (j₂.node 0) _).map _ = _
    rw [hn₂, hr.stored]
    rfl
  have hstep₄ : j₃.step fourBytes (.call 0 (.recvl 128 4 3 20567 0 0)) = some j₄ :=
    Job.call_eq (by rw [hn₃]; exact hr.found)
  obtain ⟨hq₀, hq₁, hq₂⟩ := hr.quiet
  -- only the RTS and the RTR are sent
  have hflight₁ : j₁.flight = [] := by
    show (([] ++ newWires 0 (j₀.node 0) s₀) ++ newWires 0 (k₀.node 0) s₁) ++ newWires 3 (k₁.node 3) t = []
    rw [newWires_same (hq₀.trans (hstart 0).1.symm), hn₀, newWires_same (hq₁.trans hq₀.symm), hn',
      newWires_same (hq₃.trans (hstart 3).1.symm)]
    rfl
  have hflight₂ : j₂.flight = [w] := by
    show j₁.flight ++ newWires 3 (j₁.node 3) s = [w]
    rw [hflight₁, hn₁', hwires]
    rfl
  have hflight₃ : j₃.flight = [] := by
    show j₂.flight.erase w ++ newWires 0 (j₂.node 0) s₂ = []
    rw [hflight₂, hn₂, newWires_same (hq₂.trans hq₁.symm)]
    simp
  refine ⟨j₀, w, j₄, ⟨fun r => ⟨rankDev r, 0, d r, fresh_rankDev r, hd r, rfl⟩, rfl, rfl, rfl⟩, valid_fourBytes hd,
    fun r => (hstart r).2, ?_, ?_, ?_, ?_, ?_, ?_, fun x hx => ?_, ?_, ?_⟩
  · have hcall : Allowed k₀ (.call 0 (.refill ⟨0, 0, 0⟩)) := ⟨trivial, by rw [hn₀]; exact hr.few₁⟩
    have hcall' : Allowed k₁ (.call 3 (.refill ⟨0, 0, 0⟩)) := ⟨trivial, by rw [hn']; exact hfew₃⟩
    refine Job.Along.cons ⟨⟨trivial, hr.few₀⟩, trivial⟩ hstep₀ (Job.Along.cons ⟨hcall, trivial⟩ hstep₁
      (Job.Along.cons ⟨hcall', trivial⟩ hstep' (Job.Along.cons ⟨?_, trivial⟩ hstep₂ (Job.Along.cons ⟨?_, ?_⟩ hstep₃
        (Job.Along.cons ⟨⟨(by decide : (3 : CInt).toNat < 2 ^ 31), ?_⟩, ?_⟩ hstep₄ trivial)))))
    · intro hm
      rcases List.mem_append.1 hm with hm | hm
      · rcases List.mem_append.1 hm with hm | hm
        · exact newEvents_no_start 0 _ _ 0 hm
        · exact newEvents_no_start 0 _ _ 0 hm
      · exact newEvents_no_start 3 _ _ 0 hm
    · refine allowed_arrive ?_ ⟨_, _, _, _, rfl⟩ (by rw [← hr.backend, ← hn₂]; rfl) ?_
      · rw [hflight₂]
        simp
      · show 1023 ∈ (j₂.node 0).dev.posted.filterMap Post.ctx
        rw [hn₂, hr.posted]
        simp
    · intro x m hm
      rw [hop] at hm
      cases hm
    · rw [hn₃]
      exact hr.idle
    · show (20567 : CInt) ≠ -1
      decide
  · rw [askedFor, Job.run, hstep₀, Option.bind_some, Job.run, hstep₁, Option.bind_some, Job.run, hstep',
      Option.bind_some, Job.run, hstep₂, Option.bind_some, Job.run, hstep₃, Option.bind_some, Job.run, hstep₄]
    rfl
  · rw [hn₄]
    exact hr.sends
  · rw [hn₄]
    exact hr.owed
  · rw [hn₄]
    exact hr.table
  · rw [hn₄]
    exact hr.idle'
  · obtain ⟨dst, word, size, data, ho⟩ := hr.answer
    have hx' : x ∈ j₃.flight ++ newWires 0 (j₃.node 0) s₃ := hx
    rw [hflight₃, hn₃, List.nil_append] at hx'
    exact ⟨dst, word, size, data, List.mem_singleton.1 (mem_newWires ho hx')⟩
  · rw [hn₄]
    exact hr.spare.2
  · rw [hn₄']
    exact hposted₃

theorem Granted.inStage {j₀ j : Job} {w : Wire} (h : Granted j₀ w j) :
    ∃ x buf, InStage fourBytes j₀ j x (.granted 1023 buf true) := by
  obtain ⟨j', st, hrun, hI, hA⟩ := h.starts.run h.valid h.sound
  obtain rfl : j = j' := Option.some_injective _ (h.run.symm.trans hrun)
  have howed : 1023 ∈ (j.node 0).owed := by rw [h.owed]; simp
  obtain ⟨hx, buf, a, b, hwait⟩ := (hI.tgt 0).waits 1023 (.inl howed)
  obtain ⟨-, w2, w3, -⟩ := (hI.tgt 0).waiting _ 1023 buf a b hwait hx
  obtain rfl : a = true := w2.2 (by rw [h.sends]; simp)
  rcases Stage.waiting_of_tgt hwait with ⟨hst, -⟩ | ⟨phase, ctx, hst, hb⟩
  · exact ⟨_, buf, st, hI, hA, hst⟩
  · -- the write would be in flight
    have hph : phase ≠ .landed := by simpa [w3.2 howed] using hb
    obtain ⟨v, hv, hvx⟩ := hI.net.all (xf (j.node 0) 1023) (by
      rw [hst]
      cases phase <;> simp [Stage.net, Phase.net] at hph ⊢)
    have hs := hI.net.sails v hv
    rw [hvx, hst] at hs
    obtain ⟨dst, word, size, data, hmsg⟩ := h.flight v hv
    cases phase with
    | landed => exact absurd rfl hph
    | posted =>
      change Sails fourBytes _ _ _ (.write 1023 buf) v at hs
      cases hs
      cases hmsg
    | placed =>
      change Sails fourBytes _ _ _ (.imm 1023 buf) v at hs
      cases hs
      cases hmsg

/-- A transfer from its start to its end: the write, the immediate, the completions of both sides, the event and the
callback. -/
theorem exactly_once_completed : ∃ j₀ acts j x, j₀.Starts ∧ Valid fourBytes j₀ ∧ j₀.SoundRun fourBytes acts ∧
    j₀.run fourBytes acts = some j ∧ ExactlyOnce fourBytes j₀ j ∧ j.log.countP (Rec.completes x) = 1 ∧
    j.log.countP (Rec.calls x) = 1 := by
  obtain ⟨j₀, w, j₁, h⟩ := granted_run
  obtain ⟨x, buf, hx⟩ := h.inStage
  obtain ⟨acts, j, hsound, hrun, hdone, hcalled⟩ :=
    hx.completes h.valid h.backend (show (3 : CInt) ≠ 0 by decide) h.posted.2 h.posted.1
  have hall := h.sound.append (fun _ _ => id) h.run hsound
  obtain ⟨j', hrun', honce⟩ := exactly_once h.starts h.valid hall
  have hlast : j₀.run fourBytes (askedFor w ++ acts) = some j := by
    rw [Job.run_append, h.run]
    exact hrun
  obtain rfl : j = j' := Option.some_injective _ (hlast.symm.trans hrun')
  exact ⟨j₀, _, j, x, h.starts, h.valid, hall, hlast, honce, hdone, hcalled⟩

/-! ## A receive with tag -1 -/

section Sent

variable {s : Sys} {d : Dev} {p : PktId} {x : Posting} {len n : Nat}

/-- The first of two completions for a packet that waits. -/
theorem sent_first (h : Waiting d s.dev p x len n 2) (env : Env) : ∃ s', Server.step s (.sent env p) = some s' ∧
    Waiting d s'.dev p x len n 1 ∧ s'.dev.sends = s.dev.sends.erase p ∧ s'.owed = s.owed ∧
      Frame s.dev s'.dev := by
  have hw : Waiting d { s.dev with sends := s.dev.sends.erase p } p x len n 2 := h.of_eq _ rfl rfl rfl rfl rfl
  obtain ⟨D, hD, -, hwait⟩ := hw.decRef_first env
  obtain ⟨hdoes, -⟩ := does_decRef (.inr ⟨_, hw.req⟩) hD
  rw [if_neg (by rw [hw.ref]; decide)] at hdoes
  refine ⟨s.next D, ?_, hwait, hdoes.1.sends.trans (List.append_nil _), ?_,
    (Frame.of_eq rfl : Frame s.dev { s.dev with sends := s.dev.sends.erase p }).trans (frame_decRef hD)⟩
  · show (lciServeSend env { s.dev with sends := s.dev.sends.erase p } p).map s.next = _
    rw [h.serveSend_eq, hD]
    rfl
  · show s.owed ++ rtrsSince s.dev D = s.owed
    have hout : D.out = s.dev.out := hdoes.1.out.trans (List.append_nil _)
    rw [rtrsSince_same hout, List.append_nil]

/-- The second one raises the completion event. -/
theorem sent_second (h : Waiting d s.dev p x len n 1) (env : Env) :
    ∃ s' v ep hs, Server.step s (.sent env p) = some s' ∧
    s'.dev.events = s.dev.events ++ .completed ep (.user x.req) v :: hs := by
  have hw : Waiting d { s.dev with sends := s.dev.sends.erase p } p x len n 1 := h.of_eq _ rfl rfl rfl rfl rfl
  obtain ⟨D, hD, -⟩ := hw.decRef_second env
  obtain ⟨hdoes, -⟩ := does_decRef (.inr ⟨_, hw.req⟩) hD
  rw [if_pos hw.ref, hw.req] at hdoes
  obtain ⟨hs, ep, -, hdoes⟩ := hdoes
  refine ⟨s.next D, _, ep, hs, ?_, hdoes.events⟩
  show (lciServeSend env { s.dev with sends := s.dev.sends.erase p } p).map s.next = _
  rw [h.serveSend_eq, hD]
  rfl

/-- The immediate, when it is the second: the packet is done. -/
theorem imm_second (hg : Good s) (h : Waiting d s.dev p x len n 1) (hlt : p < LC_SERVER_NUM_PKTS) {s' : Sys} {env : Env}
    {q : PktId} {src : CInt} {size : Nat}
    (hs : Server.step s (.completed env ⟨q, .recvRdmaWithImm, src, size, rtrWord s.dev p, .buffer []⟩) = some s') :
    s'.dev.sends = s.dev.sends ∧ s'.owed = s.owed.erase p ∧
      ∃ v ep hs, s'.dev.events = s.dev.events ++ .completed ep (.user x.req) v :: hs := by
  obtain ⟨s₁, hl⟩ := lands_ibv hg hlt hs
  obtain ⟨D, pool, hD, rfl⟩ := hl.call
  have hreq : s₁.dev.reqPtr p = .user x.req := by
    unfold Dev.reqPtr
    rw [hl.near.pk]
    exact h.req
  have href : (s₁.dev.pk p).context.ref = 1 := by rw [hl.near.pk, h.ref]
  obtain ⟨hdoes, -⟩ := does_decRef (.inr ⟨_, hreq⟩) hD
  rw [if_pos href, hreq] at hdoes
  obtain ⟨hs, ep, -, hdoes⟩ := hdoes
  refine ⟨hdoes.sends.trans ((List.append_nil _).trans hl.sends), ?_, (s₁.dev.pk p).data, ep, hs, ?_⟩
  · show s₁.owed ++ rtrsSince s₁.dev (D.setPool pool) = s.owed.erase p
    have hout : (D.setPool pool).out = s₁.dev.out := hdoes.out.trans (List.append_nil _)
    rw [rtrsSince_same hout, List.append_nil, hl.owed]
  · rw [← hl.near.events]
    exact hdoes.events

end Sent

/-- The receive with tag -1, and the completions of both RTRs. -/
def twoRtrs : List Act := [.call 0 (.recvl 192 4 3 (-1) 0 1), .sent 0 ⟨0, 0, 0⟩ 1023, .sent 0 ⟨0, 0, 0⟩ 1023]

/-- The receive finds the slot that the first one has freed, and packet 1023 in it, which waits already. -/
theorem twoRtrs_run {j : Job} (hg : Good (j.node 0)) (hsends : (j.node 0).dev.sends = [1023])
    (htbl : ((j.node 0).dev.eps 0).tbl = staleTable) (hidle : Idle (j.node 0) 1)
    (hpend : (j.pending.filter fun w => w.src = 0).map Wire.ctx = [1023]) :
    ∃ j', j.Along fourBytes Allowed twoRtrs ∧ j.run fourBytes twoRtrs = some j' ∧
      ∃ ep rp data buf, .event 0 (.completed ep rp data) buf ∈ j'.log := by
  -- the key of tag -1 is that of a free slot, so the packet is found once more
  have hfound : (lcHashInsert Ptr.null staleTable (lcMakeKey 3 (-1)) (.req 1) .client).ret = 0 ∧
      (lcHashInsert Ptr.null staleTable (lcMakeKey 3 (-1)) (.req 1) .client).value = .pkt 1023 := by decide +kernel
  obtain ⟨s₁, m, len, n, h₁, -, hw₁, hsends₁, hout₁, -⟩ :=
    recvl_found 192 4 (u := 1) hg.page (by decide) (good_room hg 1023)
    (congrArg (fun t => lcHashInsert .null t (lcMakeKey 3 (-1)) (.req 1) .client) htbl) hfound.1 hfound.2
  obtain ⟨s₂, h₂, hw₂, hsends₂, -⟩ := sent_first hw₁ ⟨0, 0, 0⟩
  obtain ⟨s₃, v, ep, hs, h₃, hevents⟩ := sent_second hw₂ ⟨0, 0, 0⟩
  let j₁ : Job := j.moves 0 s₁ []
  have hn₁ : j₁.node 0 = s₁ := j.moves_self 0 s₁ []
  -- now two RTRs of one packet are with the transport
  have hpend₁ : (j₁.pending.filter fun w => w.src = 0).map Wire.ctx = [1023, 1023] := by
    show ((j.pending ++ newWires 0 (j.node 0) s₁).filter _).map _ = _
    unfold newWires
    rw [hsends₁, hout₁, List.drop_left, List.drop_left, List.filter_append, List.map_append, hpend]
    rfl
  obtain ⟨w₁, hf₁⟩ := find_ctx (l := j₁.pending) (r := 0) (c := 1023) (by rw [hpend₁]; simp)
  obtain ⟨-, -, -, herase⟩ := erase_ctx hf₁
  let j₂ : Job := ({ j₁ with pending := j₁.pending.erase w₁ } : Job).moves 0 s₂ [.sent w₁]
  have hn₂ : j₂.node 0 = s₂ := Job.moves_self _ 0 s₂ [.sent w₁]
  have hctx : 1023 ∈ (j₂.pending.filter fun w => w.src = 0).map Wire.ctx := by
    show 1023 ∈ ((j₁.pending.erase w₁ ++ _).filter _).map _
    rw [List.filter_append, List.map_append, herase, hpend₁]
    simp
  obtain ⟨w₂, hf₂⟩ := find_ctx hctx
  let j₃ : Job := ({ j₂ with pending := j₂.pending.erase w₂ } : Job).moves 0 s₃ [.sent w₂]
  have hstep₁ : j.step fourBytes (.call 0 (.recvl 192 4 3 (-1) 0 1)) = some j₁ := Job.call_eq h₁
  have hstep₂ : j₁.step fourBytes (.sent 0 ⟨0, 0, 0⟩ 1023) = some j₂ := Job.sent_eq hf₁ (by rw [hn₁]; exact h₂)
  have hstep₃ : j₂.step fourBytes (.sent 0 ⟨0, 0, 0⟩ 1023) = some j₃ := Job.sent_eq hf₂ (by rw [hn₂]; exact h₃)
  refine ⟨j₃, Job.Along.cons ⟨(by decide : (3 : CInt).toNat < 2 ^ 31), hidle⟩ hstep₁ (Job.Along.cons ?_ hstep₂
    (Job.Along.cons ?_ hstep₃ trivial)), ?_, ep, .user 1, v, eventBuf s₃.dev (.completed ep (.user 1) v), ?_⟩
  · show 1023 ∈ (j₁.node 0).dev.sends
    rw [hn₁, hsends₁, hsends]
    simp
  · show 1023 ∈ (j₂.node 0).dev.sends
    rw [hn₂, hsends₂, hsends₁, hsends]
    simp
  · rw [twoRtrs, Job.run, hstep₁, Option.bind_some, Job.run, hstep₂, Option.bind_some, Job.run, hstep₃]
    rfl
  · refine List.mem_append_right _ (List.mem_append_right _ ?_)
    show _ ∈ newEvents 0 (j₂.node 0) s₃
    unfold newEvents
    rw [hn₂, hevents, List.drop_left]
    exact List.mem_cons_self

/-- The completion event of the second receive is raised though no immediate has come: the completions of the two RTRs
have counted the packet off. -/
theorem completed_without_immediate : ∃ j₀ acts j, j₀.Starts ∧ Valid fourBytes j₀ ∧ j₀.Along fourBytes Allowed acts ∧
    j₀.run fourBytes acts = some j ∧ (∃ ep rp data buf, .event 0 (.completed ep rp data) buf ∈ j.log) ∧
    (∀ t q x, .imm t q x ∉ j.log) ∧ ¬ ExactlyOnce fourBytes j₀ j := by
  obtain ⟨j₀, w, j₁, h₀, hT, -, hsound, hrun, hsends, -, htbl, hidle, -⟩ := granted_run
  obtain ⟨j₁', st, hrun', hI, -⟩ := h₀.run hT hsound
  obtain rfl : j₁ = j₁' := Option.some_injective _ (hrun.symm.trans hrun')
  obtain ⟨j, halong, hrun₂, ep, rp, data, buf, hev⟩ :=
    twoRtrs_run (hI.good 0) hsends htbl hidle ((hI.pend 0).ctxs.trans hsends)
  have hfinal : j₀.run fourBytes (askedFor w ++ twoRtrs) = some j := by
    rw [Job.run_append, hrun]
    exact hrun₂
  have hnone : ∀ t q x, .imm t q x ∉ j.log := by
    intro t q x hm
    have hm₀ := Job.run_imm (by simp [askedFor, twoRtrs]) hfinal hm
    rw [h₀.log] at hm₀
    cases hm₀
  refine ⟨j₀, askedFor w ++ twoRtrs, j, h₀, hT, hsound.append (fun _ _ h => h.1) hrun halong, hfinal,
    ⟨ep, rp, data, buf, hev⟩, hnone, fun h => ?_⟩
  obtain ⟨l, l', hl⟩ := List.append_of_mem hev
  have hrec : Received fourBytes (start j₀) l data.view.xfer 0 buf := h.after l _ l' hl
  obtain ⟨q, hq⟩ := hrec.imm
  have hmem : .imm (fourBytes data.view.xfer).tgt q data.view.xfer ∈ j.log := by
    rw [hl]
    exact List.mem_append_left _ hq
  exact hnone _ q _ hmem

end Lci.Server.Rendezvous
