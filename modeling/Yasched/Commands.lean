import Yasched.Client

/-!
# Commands

Any number of administrators at one zone. Each client is a process that opens
the device, makes its call and ends while others do the same, so that the calls
and the ends of two clients can be in different orders. What a job comes to
follows the order of the calls.
-/

namespace Yasched.Client

open Admin

-- ---------------------------------------------------------------------------
-- The last of a log
-- ---------------------------------------------------------------------------

section
variable {D : ι → α → Prop} {skipped : α → Prop} {log : List ι} {op op' : α}

/-- Of the entries that `D` says something of, the last but for `skipped` ones
is an `op`. -/
def LastOf (D : ι → α → Prop) (skipped : α → Prop) (log : List ι) (op : α) : Prop :=
  ∃ before k after, log = before ++ k :: after ∧ D k op ∧
    ∀ k' ∈ after, ∀ op', D k' op' → skipped op'

theorem lastOf_nil : ¬LastOf D skipped [] op := by
  rintro ⟨before, k, after, hnil, -⟩
  exact List.append_ne_nil_of_right_ne_nil before (List.cons_ne_nil k after) hnil.symm

theorem lastOf_concat : LastOf D skipped (log ++ [k]) op ↔
    D k op ∨ (∀ op', D k op' → skipped op') ∧ LastOf D skipped log op := by
  constructor
  · rintro ⟨before, k', after, hlog, hop, hafter⟩
    rcases List.eq_nil_or_concat' after with rfl | ⟨after, k'', rfl⟩
    · obtain ⟨-, hk⟩ := List.append_inj' hlog rfl
      cases hk
      exact .inl hop
    · rw [← List.cons_append, ← List.append_assoc] at hlog
      obtain ⟨rfl, hk⟩ := List.append_inj' hlog rfl
      cases hk
      obtain ⟨hold, hnew⟩ := List.forall_mem_append.mp hafter
      exact .inr ⟨hnew k List.mem_cons_self, before, k', after, rfl, hop, hold⟩
  · rintro (hop | ⟨hskip, before, k', after, rfl, hop, hafter⟩)
    · exact ⟨log, k, [], rfl, hop, nofun⟩
    · refine ⟨before, k', after ++ [k], by simp, hop, List.forall_mem_append.mpr ⟨hafter, ?_⟩⟩
      intro k'' hmem
      rw [List.mem_singleton.mp hmem]
      exact hskip

theorem lastOf_did (hop : D k op) (hone : ∀ op', D k op' → op' = op) :
    LastOf D skipped (log ++ [k]) op' ↔ op' = op ∨ skipped op ∧ LastOf D skipped log op' := by
  rw [lastOf_concat]
  refine or_congr ⟨hone op', ?_⟩ (and_congr_left' ⟨fun hskip => hskip op hop, ?_⟩)
  · rintro rfl
    exact hop
  · intro hskip op' hop'
    rwa [hone op' hop']

theorem lastOf_other (hno : ∀ op, ¬D k op) :
    LastOf D skipped (log ++ [k]) op ↔ LastOf D skipped log op := by
  rw [lastOf_concat]
  constructor
  · rintro (hop | ⟨-, hlast⟩)
    · exact absurd hop (hno op)
    · exact hlast
  · exact fun hlast => .inr ⟨fun op' hop' => absurd hop' (hno op'), hlast⟩

end

/-- The state word that the operations of a log lead to, one after another. -/
inductive Leads (D : ι → JobOp → Prop) : List ι → YaJobState → Prop
  | start : Leads D [] .running
  | did {log : List ι} {k : ι} : Leads D log state → D k op → (∀ op', D k op' → op' = op) →
      Leads D (log ++ [k]) (op.write state).1
  | other {log : List ι} {k : ι} : Leads D log state → (∀ op, ¬D k op) → Leads D (log ++ [k]) state

section
variable {D D' : ι → JobOp → Prop} {log : List ι}

theorem Leads.congr (h : Leads D log state) (hd : ∀ k ∈ log, ∀ op, D k op ↔ D' k op) :
    Leads D' log state := by
  induction h with
  | start => exact .start
  | @did _ op log k hlead hop hone ih =>
    obtain ⟨hlog, hk⟩ := List.forall_mem_append.mp hd
    have hk := hk k List.mem_cons_self
    exact .did (ih hlog) ((hk op).mp hop) fun op' hop' => hone op' ((hk op').mpr hop')
  | @other _ log k hlead hno ih =>
    obtain ⟨hlog, hk⟩ := List.forall_mem_append.mp hd
    exact .other (ih hlog) fun op => (hk k List.mem_cons_self op).not.mp (hno op)

theorem leads_running (hno : ∀ k ∈ log, ∀ op, ¬D k op) : Leads D log .running := by
  induction log using List.reverseRecOn with
  | nil => exact .start
  | append_singleton log k ih =>
    obtain ⟨hlog, hk⟩ := List.forall_mem_append.mp hno
    exact .other (ih hlog) (hk k List.mem_cons_self)

/-- Suspended is a job whose last command says so. -/
theorem Leads.suspended (h : Leads D log state) :
    state = .suspended ↔ LastOf D (fun _ => False) log .suspend := by
  induction h with
  | start => exact iff_of_false nofun lastOf_nil
  | @did state op log k hlead hop hone ih =>
    rw [lastOf_did hop hone]
    cases op <;> cases state <;> simp [JobOp.write]
  | other hlead hno ih => rw [lastOf_other hno, ih]

theorem Leads.killed (h : Leads D log state) :
    state = .killed ↔ LastOf D (· = .resume) log .kill := by
  induction h with
  | start => exact iff_of_false nofun lastOf_nil
  | @did state op log k hlead hop hone ih =>
    rw [lastOf_did hop hone, ← ih]
    cases op <;> cases state <;> simp [JobOp.write]
  | other hlead hno ih => rw [lastOf_other hno, ih]

end

-- ---------------------------------------------------------------------------
-- Clients side by side
-- ---------------------------------------------------------------------------

structure Started where
  process : Process
  argv : List (List UInt8)
  proc : Proc

/-- The zone, the clients, and those of them that have made their call, in the
order of the calls. -/
structure Admins where
  sys : Sys
  procs : List Started
  log : List Nat

/-- `go` is the next step of a client that others see. -/
inductive AdminEvent
  | newJob (t : Nat) (junk : TaskState)
  | delJob (p : Nat)
  | start (process : Process) (argv : List (List UInt8))
  | go (k : Nat) (keep : List Nat)

def Proc.calls : Proc → Bool
  | .ioctl _ _ _ => true
  | _ => false

def Proc.code : Proc → Option Int
  | .exit code _ | .exited code => some code
  | _ => none

def adminStep (h : Hooks) (a : Admins) : AdminEvent → Option Admins
  | .newJob t junk => some { a with sys := yaInitJob a.sys t junk }
  | .delJob p => if p ∈ a.sys.jobList then some { a with sys := yaDelJob a.sys p } else none
  | .start process argv => some { a with procs := a.procs ++ [⟨process, argv, main process argv⟩] }
  | .go k keep =>
    match a.procs[k]? with
    | none => none
    | some client => (client.proc.step client.process h keep a.sys).map fun next =>
      { sys := next.2
        procs := a.procs.set k { client with proc := next.1 }
        log := if client.proc.calls then a.log ++ [k] else a.log }

/-- The `k`-th client ends with 0, and its command line asks for `op` on job `p`. -/
def Did (procs : List Started) (p k : Nat) (op : JobOp) : Prop :=
  ∃ client zid, procs[k]? = some client ∧
    Asks client.process.posixlyCorrect client.argv op zid p ∧ client.proc.code = some 0

-- ---------------------------------------------------------------------------
-- Steps of a client
-- ---------------------------------------------------------------------------

/-- Where a client can be that has made its call, or has not. -/
inductive Reached (process : Process) (argv : List (List UInt8)) : Bool → Proc → Prop
  | begins : Begins process argv proc → Reached process argv false proc
  | opened : Asks process.posixlyCorrect argv op jop.zoneId jop.jobId → jop.op = op.number →
      Reached process argv false (.ioctl op.cmd jop fun ret => .exit (process.result ret) [])
  | idle {code : Int} : (∀ op zid jid, ¬Asks process.posixlyCorrect argv op zid jid) →
      Reached process argv false (.exited code)
  | refused {code : Int} : proc.code = some code → code ≠ 0 → Reached process argv false proc
  | called {code : Int} : proc.code = some code → Reached process argv true proc

/-- What a client does with its next step: it makes its call, or leaves the
kernel alone. -/
inductive Goes (process : Process) (argv : List (List UInt8)) (h : Hooks) (keep : List Nat)
    (s : Sys) (proc : Proc) : Bool → Proc → Sys → Prop
  | calls : proc.calls = true → Asks process.posixlyCorrect argv op zid jid →
      proc'.code = some (process.result (jobOp op h keep s zid jid).1) →
      Goes process argv h keep s proc false proc' (jobOp op h keep s zid jid).2
  | quiet : proc.calls = false → Reached process argv made proc' →
      (made = true → proc'.code = proc.code) → Goes process argv h keep s proc made proc' s

section
variable {process : Process} {code : Int}

theorem Proc.step_code {proc : Proc} (hcode : proc.code = some code)
    (hs : proc.step process h keep s = some (proc', s')) :
    proc.calls = false ∧ proc'.code = some code ∧ s' = s := by
  cases proc with
  | exit code' out =>
    cases hs
    exact ⟨rfl, hcode, rfl⟩
  | openDevice | ioctl | shell => cases hcode
  | exited => cases hs

theorem Reached.goes (hr : Reached process argv made proc)
    (hs : proc.step process h keep s = some (proc', s')) :
    Goes process argv h keep s proc made proc' s' := by
  cases hr with
  | begins hbegins =>
    cases hbegins with
    | @asked op jop hasks hop =>
      cases hopen : process.openErrno with
      | none =>
        simp only [sendCtl, Proc.step, hopen, Option.some.injEq, Prod.mk.injEq] at hs
        obtain ⟨rfl, rfl⟩ := hs
        exact .quiet rfl (.opened hasks hop) fun h => absurd h Bool.false_ne_true
      | some errno =>
        simp only [sendCtl, Proc.step, hopen, Option.some.injEq, Prod.mk.injEq] at hs
        obtain ⟨rfl, rfl⟩ := hs
        exact .quiet rfl (.refused rfl (Int.ne_of_gt (process.perror errno).property))
          fun h => absurd h Bool.false_ne_true
    | notAsked hno =>
      cases hs
      exact .quiet rfl (.idle hno) fun h => absurd h Bool.false_ne_true
    | shell => cases hs
  | opened hasks hop =>
    simp only [Proc.step, user_ioctl _ hop, Option.some.injEq, Prod.mk.injEq] at hs
    obtain ⟨rfl, rfl⟩ := hs
    exact .calls rfl hasks rfl
  | idle => cases hs
  | refused hcode hne =>
    obtain ⟨hcalls, hcode', rfl⟩ := Proc.step_code hcode hs
    exact .quiet hcalls (.refused hcode' hne) fun h => absurd h Bool.false_ne_true
  | called hcode =>
    obtain ⟨hcalls, hcode', rfl⟩ := Proc.step_code hcode hs
    exact .quiet hcalls (.called hcode') fun _ => hcode'.trans hcode.symm

theorem Begins.not_asked (hb : Begins process argv proc) (hcode : proc.code = some code) :
    ∀ op zid jid, ¬Asks process.posixlyCorrect argv op zid jid := by
  cases hb with
  | asked => cases hcode
  | notAsked hno => exact hno
  | shell => cases hcode

theorem Reached.has_called (hr : Reached process argv made proc) (hcode : proc.code = some 0)
    (hasks : Asks process.posixlyCorrect argv op zid jid) : made = true := by
  cases hr with
  | begins hbegins => exact absurd hasks (hbegins.not_asked hcode op zid jid)
  | opened => cases hcode
  | idle hno => exact absurd hasks (hno op zid jid)
  | refused hcode' hne => exact absurd (Option.some.inj (hcode'.symm.trans hcode)) hne
  | called => rfl

end

-- ---------------------------------------------------------------------------
-- The clients of a run
-- ---------------------------------------------------------------------------

structure Clients (a : Admins) : Prop where
  reached : ∀ k client, a.procs[k]? = some client →
    Reached client.process client.argv (decide (k ∈ a.log)) client.proc
  started : ∀ k ∈ a.log, k < a.procs.length
  nodup : a.log.Nodup

section
variable {a a' : Admins}

theorem Clients.did_mem (hc : Clients a) (hd : Did a.procs p k op) : k ∈ a.log := by
  obtain ⟨client, zid, hk, hasks, hcode⟩ := hd
  exact of_decide_eq_true ((hc.reached k client hk).has_called hcode hasks)

theorem did_of_ne {procs : List Started} (hne : k' ≠ k) :
    Did (procs.set k client) p k' op ↔ Did procs p k' op := by
  simp only [Did, List.getElem?_set_ne hne.symm]

theorem did_self {procs : List Started} (hk : procs[k]? = some old) :
    Did (procs.set k client) p k op ↔
      ∃ zid, Asks client.process.posixlyCorrect client.argv op zid p ∧
        client.proc.code = some 0 := by
  have hlt : k < procs.length := (List.getElem?_eq_some_iff.mp hk).1
  simp only [Did, List.getElem?_set_self hlt, Option.some.injEq, exists_and_left, exists_eq_left']

theorem did_append {procs : List Started} (hk : k < procs.length) :
    Did (procs ++ [client]) p k op ↔ Did procs p k op := by
  simp only [Did, List.getElem?_append_left hk]

theorem Clients.set {procs : List Started} {log : List Nat} (hc : Clients ⟨s, procs, log⟩)
    (hk : procs[k]? = some client) (hlog : log'.Nodup) (hsub : ∀ k' ∈ log', k' ∈ log ∨ k' = k)
    (hsup : log ⊆ log')
    (hnew : Reached client.process client.argv (decide (k ∈ log')) proc') :
    Clients ⟨s', procs.set k { client with proc := proc' }, log'⟩ := by
  have hlt : k < procs.length := (List.getElem?_eq_some_iff.mp hk).1
  refine ⟨fun k' client' hk' => ?_, fun k' hmem => ?_, hlog⟩
  · by_cases hkk : k' = k
    · subst hkk
      dsimp only at hk'
      rw [List.getElem?_set_self hlt, Option.some.injEq] at hk'
      subst hk'
      exact hnew
    · dsimp only at hk'
      rw [List.getElem?_set_ne (Ne.symm hkk)] at hk'
      have hmem : k' ∈ log' ↔ k' ∈ log := ⟨fun h => (hsub k' h).resolve_right hkk, fun h => hsup h⟩
      simpa only [hmem] using hc.reached k' client' hk'
  · rw [List.length_set]
    rcases hsub k' hmem with hold | rfl
    · exact hc.started k' hold
    · exact hlt

theorem Clients.start (hc : Clients a) (htame : process.Tame argv) :
    Clients { a with procs := a.procs ++ [⟨process, argv, main process argv⟩] } := by
  refine ⟨fun k client hk => ?_, fun k hmem => ?_, hc.nodup⟩
  · dsimp only at hk
    rcases Nat.lt_or_ge k a.procs.length with hlt | hge
    · rw [List.getElem?_append_left hlt] at hk
      exact hc.reached k client hk
    · rw [List.getElem?_append_right hge, List.getElem?_singleton] at hk
      split at hk <;> cases hk
      have hnot : k ∉ a.log := fun hmem => absurd (hc.started k hmem) (Nat.not_lt_of_ge hge)
      rw [decide_eq_false hnot]
      exact .begins (main_begins htame)
  · rw [List.length_append]
    exact Nat.lt_add_right _ (hc.started k hmem)

theorem Clients.go {made : Bool} (hc : Clients a) (hk : a.procs[k]? = some client)
    (hmade : made = decide (k ∈ a.log))
    (hg : Goes client.process client.argv h keep a.sys client.proc made proc' s') :
    Clients ⟨s', a.procs.set k { client with proc := proc' },
      if client.proc.calls then a.log ++ [k] else a.log⟩ := by
  cases hg with
  | calls hcalls hasks hcode =>
    have hnot : k ∉ a.log := of_decide_eq_false hmade.symm
    rw [if_pos hcalls]
    refine hc.set hk (List.nodup_append.mpr ⟨hc.nodup, List.nodup_singleton k, ?_⟩)
      (fun k' hmem => ?_) (List.subset_append_left _ _) ?_
    · rintro k' hmem _ hk' rfl
      exact hnot (List.mem_singleton.mp hk' ▸ hmem)
    · exact (List.mem_append.mp hmem).imp_right List.mem_singleton.mp
    · rw [decide_eq_true (List.mem_append_right _ List.mem_cons_self)]
      exact .called hcode
  | quiet hcalls hreached _ =>
    rw [hcalls, if_neg Bool.false_ne_true]
    exact hc.set hk hc.nodup (fun k' hmem => .inl hmem) (List.Subset.refl _) (hmade ▸ hreached)

end

-- ---------------------------------------------------------------------------
-- What the jobs come to
-- ---------------------------------------------------------------------------

/-- With no id given twice, a job is what the commands have made of it. -/
structure Recorded (a : Admins) : Prop where
  clients : Clients a
  numbered : Numbered a.sys
  known : a.sys.njobs ≤ jidBound → ∀ p k op, Did a.procs p k op → p < a.sys.njobs
  leads : a.sys.njobs ≤ jidBound → ∀ p < a.sys.njobs,
    Leads (Did a.procs p) a.log (a.sys.jobState p)

theorem init_recorded (n : Nat) : Recorded ⟨init n, [], []⟩ := by
  refine ⟨⟨nofun, nofun, .nil⟩, init_numbered n, fun _ p k op hd => ?_, fun _ p hp => ?_⟩
  · obtain ⟨client, zid, hk, -⟩ := hd
    cases hk
  · exact absurd hp (Nat.not_lt_zero p)

section
variable {a : Admins}

theorem Recorded.newJob (ha : Recorded a) (t : Nat) (junk : TaskState) :
    Recorded { a with sys := yaInitJob a.sys t junk } := by
  refine ⟨⟨ha.clients.reached, ha.clients.started, ha.clients.nodup⟩, ha.numbered.newJob,
    fun hb p k op hd => ?_, fun hb p hp => ?_⟩
  · have hb : a.sys.njobs ≤ jidBound := Nat.le_of_succ_le hb
    exact Nat.lt_succ_of_lt (ha.known hb p k op hd)
  · have hb : a.sys.njobs ≤ jidBound := Nat.le_of_succ_le hb
    rcases Nat.lt_succ_iff_lt_or_eq.mp hp with hlt | rfl
    · have hold := ha.leads hb p hlt
      simpa [Sys.jobState, yaInitJob, Nat.ne_of_lt hlt] using hold
    · have hrunning : (yaInitJob a.sys t junk).jobState a.sys.njobs = .running := by
        simp [Sys.jobState, yaInitJob]
      dsimp only
      rw [hrunning]
      exact leads_running fun k _ op hd => absurd (ha.known hb _ k op hd) (Nat.lt_irrefl _)

theorem Recorded.delJob (ha : Recorded a) (p : Nat) :
    Recorded { a with sys := yaDelJob a.sys p } := by
  refine ⟨⟨ha.clients.reached, ha.clients.started, ha.clients.nodup⟩, ha.numbered.delJob,
    ha.known, fun hb q hq => ?_⟩
  have hold := ha.leads hb q hq
  by_cases hqp : q = p
  · subst hqp
    simpa [Sys.jobState, yaDelJob] using hold
  · simpa [Sys.jobState, yaDelJob, hqp] using hold

theorem Recorded.start (ha : Recorded a) (htame : process.Tame argv) :
    Recorded { a with procs := a.procs ++ [⟨process, argv, main process argv⟩] } := by
  have hc := ha.clients.start htame
  have hdid {p k : Nat} {op : JobOp} (hmem : k ∈ a.log) :
      Did (a.procs ++ [⟨process, argv, main process argv⟩]) p k op ↔ Did a.procs p k op :=
    did_append (ha.clients.started k hmem)
  refine ⟨hc, ha.numbered, fun hb p k op hd => ?_, fun hb p hp => ?_⟩
  · exact ha.known hb p k op ((hdid (hc.did_mem hd)).mp hd)
  · exact (ha.leads hb p hp).congr fun k hmem op => (hdid hmem).symm

theorem Recorded.quiet {made : Bool} (ha : Recorded a) (hk : a.procs[k]? = some client)
    (hc : Clients ⟨a.sys, a.procs.set k { client with proc := proc' }, a.log⟩)
    (hmade : made = decide (k ∈ a.log)) (hcode : made = true → proc'.code = client.proc.code) :
    Recorded ⟨a.sys, a.procs.set k { client with proc := proc' }, a.log⟩ := by
  have hdid {p k' : Nat} {op : JobOp} (hmem : k' ∈ a.log) :
      Did (a.procs.set k { client with proc := proc' }) p k' op ↔ Did a.procs p k' op := by
    by_cases hkk : k' = k
    · subst hkk
      rw [did_self hk, hcode (hmade.trans (decide_eq_true hmem))]
      simp only [Did, hk, Option.some.injEq, exists_and_left, exists_eq_left']
    · exact did_of_ne hkk
  refine ⟨hc, ha.numbered, fun hb p k' op hd => ?_, fun hb p hp => ?_⟩
  · exact ha.known hb p k' op ((hdid (hc.did_mem hd)).mp hd)
  · exact (ha.leads hb p hp).congr fun k' hmem op => (hdid hmem).symm

/-- One more client has made its call: it has done one operation on one job, or
nothing. -/
theorem Recorded.append {procs : List Started} (ha : Recorded a)
    (hc : Clients ⟨s', procs, a.log ++ [k]⟩) (hnumbered : Numbered s')
    (hnjobs : s'.njobs = a.sys.njobs)
    (hold : ∀ k' ∈ a.log, ∀ p op, Did procs p k' op ↔ Did a.procs p k' op)
    (hnew : a.sys.njobs ≤ jidBound → ∀ p,
      (∀ op, ¬Did procs p k op) ∧ s'.jobState p = a.sys.jobState p ∨
      p < a.sys.njobs ∧ ∃ op, Did procs p k op ∧ (∀ op', Did procs p k op' → op' = op) ∧
        s'.jobState p = (op.write (a.sys.jobState p)).1) :
    Recorded ⟨s', procs, a.log ++ [k]⟩ := by
  refine ⟨hc, hnumbered, fun hb p k' op hd => ?_, fun hb p hp => ?_⟩
  · dsimp only at hb ⊢
    rw [hnjobs] at hb ⊢
    rcases List.mem_append.mp (hc.did_mem hd) with hmem | hlast
    · exact ha.known hb p k' op ((hold k' hmem p op).mp hd)
    · rcases hnew hb p with ⟨hno, -⟩ | ⟨hp, -⟩
      · exact absurd (List.mem_singleton.mp hlast ▸ hd) (hno op)
      · exact hp
  · dsimp only at hb hp ⊢
    rw [hnjobs] at hb hp
    have hleads := (ha.leads hb p hp).congr fun k' hmem op => (hold k' hmem p op).symm
    rcases hnew hb p with ⟨hno, hstate⟩ | ⟨-, op, hop, hone, hstate⟩
    · rw [hstate]
      exact .other hleads hno
    · rw [hstate]
      exact .did hleads hop hone

theorem Recorded.called (ha : Recorded a) (hk : a.procs[k]? = some client) (hnot : k ∉ a.log)
    (hc : Clients ⟨s', a.procs.set k { client with proc := proc' }, a.log ++ [k]⟩)
    (hasks : Asks client.process.posixlyCorrect client.argv op zid jid)
    (hcode : proc'.code = some (client.process.result ret))
    (hs : ControlStep op a.sys zid jid ret s') :
    Recorded ⟨s', a.procs.set k { client with proc := proc' }, a.log ++ [k]⟩ := by
  have hold : ∀ k' ∈ a.log, ∀ p op,
      Did (a.procs.set k { client with proc := proc' }) p k' op ↔ Did a.procs p k' op :=
    fun k' hmem p op => did_of_ne fun hkk => hnot (hkk ▸ hmem)
  have hdid {p : Nat} {op' : JobOp} : Did (a.procs.set k { client with proc := proc' }) p k op' ↔
      (op' = op ∧ p = jid) ∧ 0 ≤ ret := by
    rw [did_self hk, hcode, Option.some.injEq, client.process.result_eq_zero]
    constructor
    · rintro ⟨zid', hasks', hret⟩
      obtain ⟨hop, -, hjid⟩ := hasks'.unique hasks
      exact ⟨⟨hop, hjid⟩, hret⟩
    · rintro ⟨⟨rfl, rfl⟩, hret⟩
      exact ⟨zid, hasks, hret⟩
  have hnumbered : Numbered s' := ha.numbered.control hs
  cases hs with
  | unknown _ =>
    refine ha.append hc hnumbered rfl hold fun _ p => .inl ⟨fun op' hd => ?_, rfl⟩
    exact absurd (hdid.mp hd).2 (by decide)
  | @found q _ _ hsearch hnjobs _ _ hjobs =>
    obtain ⟨hmem, hid⟩ := searchJobById_some hsearch
    have hlt : q < a.sys.njobs := ((ha.numbered.listed q).mp hmem).1
    refine ha.append hc hnumbered hnjobs hold fun hb p => ?_
    -- below the bound the id is the number of the job
    have hown : q = jid := by
      rw [← hid, ha.numbered.id q hlt, Nat.mod_eq_of_lt (Nat.lt_of_lt_of_le hlt hb)]
    by_cases hpq : p = q
    · subst hpq
      refine .inr ⟨hlt, op, hdid.mpr ⟨⟨rfl, hown⟩, Int.le_refl 0⟩, fun op' hd => ?_, ?_⟩
      · exact (hdid.mp hd).1.1
      · simp [Sys.jobState, hjobs]
    · refine .inl ⟨fun op' hd => hpq ((hdid.mp hd).1.2.trans hown.symm), ?_⟩
      simp [Sys.jobState, hjobs, hpq]

def AdminEvent.Tame : AdminEvent → Prop
  | .start process argv => process.Tame argv
  | _ => True

theorem step_recorded (ha : Recorded a) (htame : e.Tame) (hs : adminStep h a e = some a') :
    Recorded a' := by
  cases e with
  | newJob t junk =>
    cases hs
    exact ha.newJob t junk
  | delJob p =>
    simp only [adminStep] at hs
    split at hs <;> cases hs
    exact ha.delJob p
  | start process argv =>
    cases hs
    exact ha.start htame
  | go k keep =>
    simp only [adminStep] at hs
    split at hs
    case h_1 => cases hs
    case h_2 client hk =>
      obtain ⟨⟨proc', s'⟩, hstep, rfl⟩ := Option.map_eq_some_iff.mp hs
      have hg := (ha.clients.reached k client hk).goes hstep
      have hc := ha.clients.go hk rfl hg
      generalize hmade : decide (k ∈ a.log) = made at hg
      cases hg with
      | calls hcalls hasks hcode =>
        rw [if_pos hcalls] at hc ⊢
        exact ha.called hk (of_decide_eq_false hmade) hc hasks hcode (control_cases _ h keep _ _ _)
      | quiet hcalls _ hcode =>
        rw [hcalls, if_neg Bool.false_ne_true] at hc ⊢
        exact ha.quiet hk hc hmade.symm hcode

end

-- ---------------------------------------------------------------------------
-- Main theorem
-- ---------------------------------------------------------------------------

/-- Fewer than 2^64 jobs, and any number of administrators: the commands that
end with 0 have all made their call, and what they have come to in the order of
the calls, the job is. -/
theorem log_tells (hr : Runs.run (adminStep h) ⟨init n, [], []⟩ es = some a)
    (htame : ∀ e ∈ es, e.Tame) (hb : a.sys.njobs ≤ jidBound) (hp : a.sys.Live p) :
    (a.log.Nodup ∧ ∀ q k op, Did a.procs q k op → k ∈ a.log) ∧
    (a.sys.jobState p = .suspended ↔
      LastOf (Did a.procs p) (fun _ => False) a.log .suspend) ∧
    (a.sys.jobState p = .killed ↔ LastOf (Did a.procs p) (· = .resume) a.log .kill) := by
  have ha : Recorded a := Runs.invariant_along (fun _ _ _ ha he hs => step_recorded ha he hs)
    (init_recorded n) (Runs.along_of_mem fun e he _ => htame e he) hr
  have hleads := ha.leads hb p hp.1
  exact ⟨⟨ha.clients.nodup, fun q k op hd => ha.clients.did_mem hd⟩, hleads.suspended,
    hleads.killed⟩

/-- Two at one job: the resumption is called first, and ends last. -/
def crossing : List AdminEvent :=
  [.newJob 0 .running, .start sampleProcess (sampleLine .suspend),
    .start sampleProcess (sampleLine .resume), .go 0 [], .go 1 [], .go 1 [], .go 0 [], .go 0 [],
    .go 1 []]

theorem log_tells_suspend : ∃ a, Runs.run (adminStep .all) ⟨init 1, [], []⟩ crossing = some a ∧
    a.sys.jobState 0 = .suspended := by
  have hmain (op : JobOp) : main sampleProcess (sampleLine op) =
      sendCtl sampleProcess op.cmd ⟨0, 0, op.number⟩ :=
    main_of_asks (sampleLine_tame op) (sampleLine_asks op)
  obtain ⟨a, hrun, hnjobs, hfreed, hlog, client, hclient, hprocess, hargv, hcode⟩ :
      ∃ a, Runs.run (adminStep .all) ⟨init 1, [], []⟩ crossing = some a ∧ a.sys.njobs = 1 ∧
        (a.sys.jobs 0).freed = 0 ∧ a.log = [1, 0] ∧ ∃ client, a.procs[0]? = some client ∧
        client.process = sampleProcess ∧ client.argv = sampleLine .suspend ∧
        client.proc.code = some 0 := by
    simp only [crossing, Runs.run, adminStep, hmain, Option.bind_some]
    exact ⟨_, rfl, rfl, rfl, rfl, _, rfl, rfl, rfl, rfl⟩
  have hdid : Did a.procs 0 0 .suspend := by
    refine ⟨client, 0, hclient, ?_, hcode⟩
    rw [hprocess, hargv]
    exact sampleLine_asks .suspend
  have htame : ∀ e ∈ crossing, e.Tame := by simp [crossing, AdminEvent.Tame, sampleLine_tame]
  have hlast : LastOf (Did a.procs 0) (fun _ => False) a.log .suspend :=
    ⟨[1], 0, [], hlog, hdid, fun _ hmem => absurd hmem List.not_mem_nil⟩
  exact ⟨a, hrun, (log_tells hrun htame (by rw [hnjobs]; decide)
    ⟨by rw [hnjobs]; decide, hfreed⟩).2.1.mpr hlast⟩

end Yasched.Client
