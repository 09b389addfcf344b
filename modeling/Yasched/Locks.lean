import Yasched.Runs

/-!
# Critical sections under one lock

Parties share a state that is written between `lock` and `unlock` only. Inside,
a party takes its section step by step, and the steps of all others, outside of
the lock, may come between any two of its own. There the others may read the
shared state, and read and write the rest.

Whatever comes between, a section is atomic: `serial` gives the shared state and
the results by the sections alone, one after another in the order in which they
unlock. `holder_unlocks` is that the lock comes free again, if the sections end.
-/

namespace Yasched.Locks

/-- `exec` is one step of a section, or its unlock with a result. -/
structure Sections (σ : Type u) (ι : Type v) (ℓ : Type w) (ρ : Type x) where
  start : ι → ℓ
  exec : ℓ → σ → ρ ⊕ (ℓ × σ)

/-- What the parties do outside: a step `outer`, where `c` is what is not
determined; the section that a party waits for, and where it goes on behind
one. -/
structure Parties (κ : Type*) (γ : Type*) (ω : Type*) (σ : Type*) (τ : Type*) (ι : Type*)
    (ρ : Type*) where
  outer : κ → γ → ω → σ → τ → Option (ω × τ)
  wants : ω → Option ι
  back : ω → ρ → ω

inductive Pc (ω : Type*) (ι : Type*) (ℓ : Type*)
  | outside (o : ω)
  | inside (o : ω) (op : ι) (l : ℓ)
  deriving DecidableEq, Repr

/-- `log` has the sections that have unlocked, with their results. -/
structure State (κ : Type*) (ω : Type*) (σ : Type*) (τ : Type*) (ι : Type*) (ℓ : Type*)
    (ρ : Type*) where
  shared : σ
  rest : τ
  pc : κ → Pc ω ι ℓ
  holder : Option κ := none
  log : List (ι × ρ) := []

inductive Event (κ : Type*) (γ : Type*)
  | outer (k : κ) (c : γ)
  | lock (k : κ)
  | inside (k : κ)
  deriving DecidableEq, Repr

section

variable {κ γ ω σ τ ι ℓ ρ : Type*} [DecidableEq κ]
variable (code : Sections σ ι ℓ ρ) (parties : Parties κ γ ω σ τ ι ρ)

def step (s : State κ ω σ τ ι ℓ ρ) : Event κ γ → Option (State κ ω σ τ ι ℓ ρ)
  | .outer k c =>
    match s.pc k with
    | .outside o => (parties.outer k c o s.shared s.rest).map fun (o, rest) =>
      { s with rest, pc := Function.update s.pc k (.outside o) }
    | .inside .. => none
  | .lock k =>
    match s.pc k, s.holder with
    | .outside o, none => (parties.wants o).map fun op =>
      { s with
        pc := Function.update s.pc k (.inside o op (code.start op))
        holder := some k }
    | _, _ => none
  | .inside k =>
    match s.pc k with
    | .outside _ => none
    | .inside o op l =>
      match code.exec l s.shared with
      | .inl r => some { s with
          pc := Function.update s.pc k (.outside (parties.back o r))
          holder := none
          log := s.log ++ [(op, r)] }
      | .inr (l, shared) => some { s with
          shared
          pc := Function.update s.pc k (.inside o op l) }

-- ---------------------------------------------------------------------------
-- Sections by themselves
-- ---------------------------------------------------------------------------

inductive Finishes : ℓ → σ → ρ → σ → Prop
  | unlock : code.exec l s = .inl r → Finishes l s r s
  | exec : code.exec l s = .inr (l', s') → Finishes l' s' r t → Finishes l s r t

inductive Reaches (op : ι) (s : σ) : ℓ → σ → Prop
  | start : Reaches op s (code.start op) s
  | exec : Reaches op s l t → code.exec l t = .inr (l', t') → Reaches op s l' t'

/-- The sections one after another. -/
inductive Serial (s : σ) : List (ι × ρ) → σ → Prop
  | nil : Serial s [] s
  | snoc : Serial s log m → Finishes code (code.start op) m r t → Serial s (log ++ [(op, r)]) t

variable {code} {parties}

theorem Reaches.finishes (h : Reaches code op s l t) (hf : Finishes code l t r u) :
    Finishes code (code.start op) s r u := by
  induction h with
  | start => exact hf
  | exec _ hexec ih => exact ih (.exec hexec hf)

theorem Finishes.unique (h : Finishes code l s r t) (h' : Finishes code l s r' t') :
    r = r' ∧ t = t' := by
  induction h with
  | unlock hexec =>
    cases h' with
    | unlock hexec' => exact ⟨Sum.inl.inj (hexec.symm.trans hexec'), rfl⟩
    | exec hexec' _ => cases hexec.symm.trans hexec'
  | exec hexec _ ih =>
    cases h' with
    | unlock hexec' => cases hexec.symm.trans hexec'
    | exec hexec' h' =>
      cases hexec.symm.trans hexec'
      exact ih h'

theorem Reaches.rest (h : Reaches code op s l t) (hf : Finishes code (code.start op) s r u) :
    Finishes code l t r u := by
  induction h with
  | start => exact hf
  | exec _ hexec ih =>
    cases ih with
    | unlock hexec' => cases hexec.symm.trans hexec'
    | exec hexec' hf' =>
      cases hexec.symm.trans hexec'
      exact hf'

-- ---------------------------------------------------------------------------
-- What a step can do
-- ---------------------------------------------------------------------------

variable (code parties) in
inductive StepOf (s : State κ ω σ τ ι ℓ ρ) : Event κ γ → State κ ω σ τ ι ℓ ρ → Prop
  | outer : s.pc k = .outside o → parties.outer k c o s.shared s.rest = some (o', rest) →
      StepOf s (.outer k c) { s with rest, pc := Function.update s.pc k (.outside o') }
  | lock : s.pc k = .outside o → s.holder = none → parties.wants o = some op →
      StepOf s (.lock k) { s with
        pc := Function.update s.pc k (.inside o op (code.start op)), holder := some k }
  | unlock : s.pc k = .inside o op l → code.exec l s.shared = .inl r →
      StepOf s (.inside k) { s with
        pc := Function.update s.pc k (.outside (parties.back o r)), holder := none,
        log := s.log ++ [(op, r)] }
  | exec : s.pc k = .inside o op l → code.exec l s.shared = .inr (l', shared) →
      StepOf s (.inside k) { s with
        shared, pc := Function.update s.pc k (.inside o op l') }

theorem step_cases {s s' : State κ ω σ τ ι ℓ ρ} {e : Event κ γ}
    (hs : step code parties s e = some s') : StepOf code parties s e s' := by
  cases e with
  | outer k c =>
    simp only [step] at hs
    split at hs
    · rename_i o hpc
      obtain ⟨⟨o', rest⟩, houter, rfl⟩ := Option.map_eq_some_iff.mp hs
      exact .outer hpc houter
    · cases hs
  | lock k =>
    simp only [step] at hs
    split at hs
    · rename_i o hpc hfree
      obtain ⟨op, hwants, rfl⟩ := Option.map_eq_some_iff.mp hs
      exact .lock hpc hfree hwants
    · cases hs
  | inside k =>
    simp only [step] at hs
    split at hs
    · cases hs
    · rename_i o op l hpc
      split at hs <;> cases hs <;> rename_i hexec
      · exact .unlock hpc hexec
      · exact .exec hpc hexec

-- ---------------------------------------------------------------------------
-- Atomicity
-- ---------------------------------------------------------------------------

/-- The holder, and nobody else, is inside; what it has done of its section
began where the sections of the log end. -/
structure Locked (s₀ : σ) (code : Sections σ ι ℓ ρ) (s : State κ ω σ τ ι ℓ ρ) : Prop where
  free : s.holder = none → Serial code s₀ s.log s.shared ∧ ∀ k, ∃ o, s.pc k = .outside o
  held : ∀ k, s.holder = some k → (∃ o op l m, s.pc k = .inside o op l ∧
    Serial code s₀ s.log m ∧ Reaches code op m l s.shared) ∧
    ∀ j ≠ k, ∃ o, s.pc j = .outside o

section

variable {s s' : State κ ω σ τ ι ℓ ρ}

theorem Locked.holder (h : Locked s₀ code s) (hpc : s.pc k = .inside o op l) :
    s.holder = some k := by
  cases hholder : s.holder with
  | none =>
    obtain ⟨o', ho⟩ := (h.free hholder).2 k
    cases hpc.symm.trans ho
  | some j =>
    by_cases hkj : k = j
    · rw [hkj]
    · obtain ⟨o', ho⟩ := (h.held j hholder).2 k hkj
      cases hpc.symm.trans ho

theorem Locked.reaches (h : Locked s₀ code s) (hpc : s.pc k = .inside o op l) :
    ∃ m, Serial code s₀ s.log m ∧ Reaches code op m l s.shared := by
  obtain ⟨⟨o', op', l', m, hpc', hserial, hreach⟩, -⟩ := h.held k (h.holder hpc)
  cases hpc.symm.trans hpc'
  exact ⟨m, hserial, hreach⟩

theorem Locked.others (h : Locked s₀ code s) (hpc : s.pc k = .inside o op l) (hj : j ≠ k) :
    ∃ o, s.pc j = .outside o :=
  (h.held k (h.holder hpc)).2 j hj

theorem outside_update {pc : κ → Pc ω ι ℓ} (h : ∀ j ≠ k, ∃ o, pc j = .outside o) (o' : ω) (j : κ) :
    ∃ o, Function.update pc k (.outside o') j = .outside o := by
  by_cases hj : j = k
  · subst hj
    exact ⟨o', Function.update_self ..⟩
  · rw [Function.update_of_ne hj]
    exact h j hj

theorem outside_others {pc : κ → Pc ω ι ℓ} (h : ∀ j ≠ k, ∃ o, pc j = .outside o) (x : Pc ω ι ℓ) :
    ∀ j ≠ k, ∃ o, Function.update pc k x j = .outside o := by
  intro j hj
  rw [Function.update_of_ne hj]
  exact h j hj

theorem Locked.outer (h : Locked s₀ code s) (hpc : s.pc k = .outside o) (rest : τ) (o' : ω) :
    Locked s₀ code { s with rest, pc := Function.update s.pc k (.outside o') } := by
  constructor
  · intro hfree
    obtain ⟨hserial, hout⟩ := h.free hfree
    exact ⟨hserial, outside_update (fun j _ => hout j) o'⟩
  · intro j hj
    obtain ⟨⟨oj, op, l, m, hin, hserial, hreach⟩, hout⟩ := h.held j hj
    have hjk : j ≠ k := by
      rintro rfl
      cases hpc.symm.trans hin
    refine ⟨⟨oj, op, l, m, (Function.update_of_ne hjk _ _).trans hin, hserial, hreach⟩, ?_⟩
    intro i hi
    by_cases hik : i = k
    · subst hik
      exact ⟨o', Function.update_self ..⟩
    · obtain ⟨oi, hoi⟩ := hout i hi
      exact ⟨oi, (Function.update_of_ne hik _ _).trans hoi⟩

theorem step_locked (h : Locked s₀ code s) {e : Event κ γ}
    (hs : step code parties s e = some s') : Locked s₀ code s' := by
  cases step_cases hs with
  | outer hpc _ => exact h.outer hpc _ _
  | @lock k o op hpc hfree hwants =>
    obtain ⟨hserial, hout⟩ := h.free hfree
    refine ⟨fun hfree => absurd hfree (Option.some_ne_none k), fun j hj => ?_⟩
    obtain rfl := Option.some.inj hj
    exact ⟨⟨o, op, _, _, Function.update_self .., hserial, .start⟩,
      outside_others (fun i _ => hout i) _⟩
  | @unlock k o op l r hpc hexec =>
    obtain ⟨m, hserial, hreach⟩ := h.reaches hpc
    refine ⟨fun _ => ⟨?_, outside_update (fun j hj => h.others hpc hj) _⟩, fun j hj => ?_⟩
    · exact .snoc hserial (hreach.finishes (.unlock hexec))
    · cases hj
  | @exec k o op l l' shared hpc hexec =>
    obtain ⟨m, hserial, hreach⟩ := h.reaches hpc
    have hheld := h.holder hpc
    refine ⟨fun hfree => absurd (hheld.symm.trans hfree) (Option.some_ne_none k), fun j hj => ?_⟩
    obtain rfl := Option.some.inj (hheld.symm.trans hj)
    exact ⟨⟨o, op, l', m, Function.update_self .., hserial, .exec hreach hexec⟩,
      outside_others (fun i hi => h.others hpc hi) _⟩

omit [DecidableEq κ] in
theorem init_locked (hfree : s.holder = none) (hlog : s.log = [])
    (hout : ∀ k, ∃ o, s.pc k = .outside o) : Locked s.shared code s :=
  ⟨fun _ => ⟨hlog ▸ .nil, hout⟩, fun k hk => absurd (hk.symm.trans hfree) (Option.some_ne_none k)⟩

/-- At most one party is inside, and what all have done to the shared state is
what the finished sections do one after another, with the beginning of the
holder's section behind them. -/
theorem serial {es : List (Event κ γ)} (hfree : s.holder = none) (hlog : s.log = [])
    (hout : ∀ k, ∃ o, s.pc k = .outside o) (hr : Runs.run (step code parties) s es = some s') :
    Locked s.shared code s' :=
  Runs.invariant (fun _ _ _ h hs => step_locked h hs) (init_locked hfree hlog hout) hr

-- ---------------------------------------------------------------------------
-- Sections with a known effect
-- ---------------------------------------------------------------------------

/-- What a function makes of the log: each result is its own, each state the
next one's. -/
inductive Performs (f : σ → ι → ρ × σ) (s : σ) : List (ι × ρ) → σ → Prop
  | nil : Performs f s [] s
  | snoc : Performs f s log m → Performs f s (log ++ [(op, (f m op).1)]) (f m op).2

/-- Inside an invariant, the sections do what `f` says, and keep it. -/
structure Does (code : Sections σ ι ℓ ρ) (I : σ → Prop) (f : σ → ι → ρ × σ) : Prop where
  finishes : ∀ s op, I s → Finishes code (code.start op) s (f s op).1 (f s op).2
  keeps : ∀ s op, I s → I (f s op).2

theorem Serial.performs {I : σ → Prop} {f : σ → ι → ρ × σ} (hd : Does code I f) (hi : I s₀)
    (h : Serial code s₀ log t) : Performs f s₀ log t ∧ I t := by
  induction h with
  | nil => exact ⟨.nil, hi⟩
  | @snoc log m op r t _ hf ih =>
    obtain ⟨hperf, him⟩ := ih
    obtain ⟨rfl, rfl⟩ := hf.unique (hd.finishes m op him)
    exact ⟨.snoc hperf, hd.keeps m op him⟩

end

end

end Yasched.Locks
