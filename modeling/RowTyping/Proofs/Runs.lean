import RowTyping.Proofs.Printing.Words
import RowTyping.Run
import RowTyping.Ty.Row

/-!
# What a run does

`Ends cfg x n vs r` holds when the computation `x`, started after `n` variables were issued, issues
the variables `vs` and ends with the result or fault `r`. How it ends depends neither on the rest of
the state nor on whether its steps are traced; a trace holds exactly the variables `vs`
(`InferM.issuedBy`). `Yields cfg x n Q E` describes such an end: with a result `a` such that
`Q vs a`, or with a fault `f` such that `E vs f`. One rule for each way to build a computation makes
it possible to say once, for a whole program, what it returns and issues, and to leave the state
behind.

The variables a run issues are named by a stem and a number that counts up. A stem of one
character can be told from the number behind it, so such names never repeat
(`NamedFrom.nodup`).
-/

namespace RowTyping

/-! ## The steps of a computation -/

namespace InferM

variable {α β : Type}

theorem bind_apply (x : InferM α) (f : α → InferM β) (cfg : Config) (st : RunState) :
    (x >>= f) cfg st = match x cfg st with
      | .ok a st' => f a cfg st'
      | .error e st' => .error e st' := by
  show EStateM.bind (x cfg) (fun a => f a cfg) st = _
  unfold EStateM.bind
  cases x cfg st <;> rfl

theorem trace_apply (e : TraceEvent) (cfg : Config) (st : RunState) :
    trace e cfg st = .ok () (if cfg.trace then { st with log := st.log.push e } else st) := by
  obtain ⟨_, _, t⟩ := cfg
  cases t <;> rfl

theorem fail_apply (e : InferError) (cfg : Config) (st : RunState) :
    (fail e : InferM α) cfg st = .error (.infer e)
      (if cfg.trace then { st with error := some e, log := st.log.push (.fail e) }
        else { st with error := some e }) := by
  obtain ⟨_, _, t⟩ := cfg
  cases t <;> rfl

end InferM

/-! ## Issued variables -/

/-- The variable that a traced step issues. -/
def TraceEvent.freshVar? : TraceEvent → Option TyVar
  | fresh v => some v
  | _ => none

/-- The variables that were issued according to a log, in order. -/
def freshVars (log : Array TraceEvent) : List TyVar := log.toList.filterMap TraceEvent.freshVar?

theorem freshVars_push (log : Array TraceEvent) (e : TraceEvent) :
    freshVars (log.push e) = freshVars log ++ e.freshVar?.toList := by
  cases h : e.freshVar? <;> simp [freshVars, h]

namespace Config

/-- The stem that is used when this one is asked for. -/
def stemFor (cfg : Config) (stem : String) : String := if stem = "" then cfg.typeStem else stem

/-- The variable that a run issues when it has issued `n`. -/
def issue (cfg : Config) (stem : String) (c : Constraint) (n : Nat) : TyVar :=
  ⟨cfg.stemFor stem ++ toString n, c⟩

/-- The unconstrained variable that a run issues when it has issued `n`. -/
def typeVar (cfg : Config) (n : Nat) : TyVar := cfg.issue cfg.typeStem .free n

/-- The row variable that a run issues when it has issued `n`. -/
def rowVar (cfg : Config) (n : Nat) (ls : Labels) : TyVar := cfg.issue cfg.rowStem (.lacks ls) n

@[simp] theorem typeVar_constraint (cfg : Config) (n : Nat) : (cfg.typeVar n).constraint = .free :=
  rfl

@[simp] theorem rowVar_constraint (cfg : Config) (n : Nat) (ls : Labels) :
    (cfg.rowVar n ls).constraint = .lacks ls := rfl

end Config

theorem InferM.freshWith_apply (c : Constraint) (stem : String) (cfg : Config) (st : RunState) :
    freshWith c stem cfg st = .ok (cfg.issue stem c st.issued)
      (if cfg.trace then
        { st with
          issued := st.issued + 1
          log := st.log.push (.fresh (cfg.issue stem c st.issued)) }
      else { st with issued := st.issued + 1 }) := by
  obtain ⟨_, _, t⟩ := cfg
  cases t <;> rfl

/-- Exactly the variables `vs` were issued on the way from one state to another. -/
structure Issues (trace : Bool) (st : RunState) (vs : List TyVar) (st' : RunState) : Prop where
  issued : st'.issued = st.issued + vs.length
  logged : trace = true → freshVars st'.log = freshVars st.log ++ vs

namespace Issues

variable {trace : Bool} {st st' st'' : RunState} {vs ws : List TyVar}

theorem refl (trace : Bool) (st : RunState) : Issues trace st [] st := ⟨rfl, fun _ => by simp⟩

theorem trans (h : Issues trace st vs st') (h' : Issues trace st' ws st'') :
    Issues trace st (vs ++ ws) st'' where
  issued := by rw [h'.issued, h.issued, List.length_append, Nat.add_assoc]
  logged ht := by rw [h'.logged ht, h.logged ht, List.append_assoc]

/-- A traced step that issues nothing. -/
theorem push {e : TraceEvent} (he : e.freshVar? = none) (trace : Bool) (st : RunState) :
    Issues trace st [] (if trace then { st with log := st.log.push e } else st) := by
  refine ⟨?_, fun ht => ?_⟩
  · split <;> rfl
  · rw [if_pos ht, freshVars_push, he]
    rfl

end Issues

/-! ## Names -/

/-- The name is a stem of a certain sort and a number of a certain sort. -/
def TyVar.Numbered (S : String → Prop) (p : Nat → Prop) (v : TyVar) : Prop :=
  ∃ stem k, S stem ∧ p k ∧ v.name = stem ++ toString k

/-- A stem of one character. -/
def SingleStem (stem : String) : Prop := stem.length = 1

/-- The stem and the number can be read off the name when the stem is a single character. -/
theorem name_unique {stem stem' : String} {k k' : Nat} (hs : SingleStem stem)
    (hs' : SingleStem stem') (h : stem ++ toString k = stem' ++ toString k') :
    stem = stem' ∧ k = k' := by
  have hl : stem.toList ++ (Nat.repr k).toList = stem'.toList ++ (Nat.repr k').toList := by
    rw [← String.toList_append, ← String.toList_append]
    exact congrArg String.toList h
  obtain ⟨hstem, hr⟩ :=
    List.append_inj hl (by rw [String.length_toList, String.length_toList, hs, hs'])
  exact ⟨String.toList_injective hstem, digits_unique hr⟩

/-- No name has two numbers. -/
theorem TyVar.Numbered.meet {S S' : String → Prop} (hS : ∀ stem, S stem → SingleStem stem)
    (hS' : ∀ stem, S' stem → SingleStem stem) {p q : Nat → Prop} {v : TyVar} (h : v.Numbered S p)
    (h' : v.Numbered S' q) : ∃ k, p k ∧ q k := by
  obtain ⟨stem, k, hs, hk, hv⟩ := h
  obtain ⟨stem', k', hs', hk', hv'⟩ := h'
  obtain ⟨-, rfl⟩ := name_unique (hS stem hs) (hS' stem' hs') (hv ▸ hv')
  exact ⟨k, hk, hk'⟩

theorem TyVar.Numbered.mono {S S' : String → Prop} {p q : Nat → Prop} {v : TyVar}
    (h : v.Numbered S p) (hS : ∀ stem, S stem → S' stem) (hp : ∀ k, p k → q k) :
    v.Numbered S' q := by
  obtain ⟨stem, k, hs, hk, hv⟩ := h
  exact ⟨stem, k, hS stem hs, hp k hk, hv⟩

/-- The variables are named by stems of a certain sort and the numbers from `n` on, in order. -/
def NamedFrom (S : String → Prop) : Nat → List TyVar → Prop
  | _, [] => True
  | n, v :: vs => v.Numbered S (· = n) ∧ NamedFrom S (n + 1) vs

namespace NamedFrom

variable {S : String → Prop}

theorem append {n : Nat} {vs ws : List TyVar} (h : NamedFrom S n vs)
    (h' : NamedFrom S (n + vs.length) ws) : NamedFrom S n (vs ++ ws) := by
  induction vs generalizing n with
  | nil => exact h'
  | cons v vs ih =>
    refine ⟨h.1, ih h.2 ?_⟩
    rwa [Nat.add_assoc, Nat.add_comm 1]

theorem numbered {n : Nat} {vs : List TyVar} (h : NamedFrom S n vs) {v : TyVar} (hv : v ∈ vs) :
    v.Numbered S fun k => n ≤ k ∧ k < n + vs.length := by
  induction vs generalizing n with
  | nil => cases hv
  | cons w vs ih =>
    rcases List.mem_cons.1 hv with rfl | hv
    · refine h.1.mono (fun _ hs => hs) fun k hk => ?_
      subst hk
      simp
    · refine (ih h.2 hv).mono (fun _ hs => hs) fun k hk => ?_
      rw [List.length_cons]
      omega

/-- Names with single stems do not repeat. -/
theorem nodup (hS : ∀ stem, S stem → SingleStem stem) {n : Nat} {vs : List TyVar}
    (h : NamedFrom S n vs) : (vs.map TyVar.name).Nodup := by
  induction vs generalizing n with
  | nil => exact .nil
  | cons v vs ih =>
    refine List.nodup_cons.2 ⟨fun hm => ?_, ih h.2⟩
    obtain ⟨w, hw, hwv⟩ := List.mem_map.1 hm
    have hv : w.Numbered S (· = n) := by
      obtain ⟨stem, k, hs, hk, hv⟩ := h.1
      exact ⟨stem, k, hs, hk, hwv.trans hv⟩
    obtain ⟨k, hk, rfl⟩ := (h.2.numbered hw).meet hS hS hv
    omega

end NamedFrom

namespace Config

/-- The stems are single characters. -/
structure SingleStems (cfg : Config) : Prop where
  type : SingleStem cfg.typeStem
  row : SingleStem cfg.rowStem

/-- One of the two stems of the run. -/
def OwnStem (cfg : Config) (stem : String) : Prop :=
  stem = cfg.typeStem ∨ stem = cfg.stemFor cfg.rowStem

theorem stemFor_of_single (cfg : Config) {stem : String} (h : SingleStem stem) :
    cfg.stemFor stem = stem := by
  refine if_neg fun he => ?_
  rw [he] at h
  cases h

theorem stemFor_typeStem (cfg : Config) : cfg.stemFor cfg.typeStem = cfg.typeStem := ite_self _

theorem SingleStems.ownStem {cfg : Config} (h : cfg.SingleStems) (stem : String)
    (hs : cfg.OwnStem stem) : SingleStem stem := by
  rcases hs with rfl | rfl
  · exact h.type
  · rw [cfg.stemFor_of_single h.row]
    exact h.row

theorem typeVar_numbered (cfg : Config) (n : Nat) : (cfg.typeVar n).Numbered cfg.OwnStem (· = n) :=
  ⟨_, n, .inl rfl, rfl, by rw [← cfg.stemFor_typeStem]; rfl⟩

theorem rowVar_numbered (cfg : Config) (n : Nat) (ls : Labels) :
    (cfg.rowVar n ls).Numbered cfg.OwnStem (· = n) := ⟨_, n, .inr rfl, rfl, rfl⟩

end Config

/-! ## Rules -/

namespace InferM

variable {α : Type}

/-- A computation ends in a state with a result or with a fault. -/
def ending : Except Fault α → RunState → EStateM.Result Fault RunState α
  | .ok a, st => .ok a st
  | .error f, st => .error f st

/-- The variables that a computation issues, read off its trace. -/
def issuedBy (x : InferM α) (cfg : Config) (st : RunState) : List TyVar :=
  match x { cfg with trace := true } { st with log := #[] } with
  | .ok _ st' => freshVars st'.log
  | .error _ st' => freshVars st'.log

end InferM

/-- When `n` variables have been issued, the computation issues `vs` and ends with `r`, whatever the
rest of the state. -/
def Ends (cfg : Config) {α : Type} (x : InferM α) (n : Nat) (vs : List TyVar)
    (r : Except Fault α) : Prop :=
  ∀ trace st, st.issued = n →
    ∃ st', x { cfg with trace := trace } st = InferM.ending r st' ∧ Issues trace st vs st'

namespace Ends

open InferM

variable {cfg : Config} {α β : Type} {n : Nat} {x : InferM α} {f : α → InferM β}
  {vs ws : List TyVar}

theorem pure (a : α) : Ends cfg (pure a) n [] (.ok a) :=
  fun trace st _ => ⟨st, rfl, .refl trace st⟩

theorem throw (e : Fault) : Ends cfg (throw e : InferM α) n [] (.error e) :=
  fun trace st _ => ⟨st, rfl, .refl trace st⟩

theorem fail (e : InferError) : Ends cfg (fail e : InferM α) n [] (.error (.infer e)) := by
  refine fun trace st _ => ⟨_, fail_apply .., ⟨?_, fun ht => ?_⟩⟩
  · split <;> rfl
  · rw [if_pos ht, freshVars_push]
    rfl

theorem trace {e : TraceEvent} (he : e.freshVar? = none) : Ends cfg (trace e) n [] (.ok ()) :=
  fun trace st _ => ⟨_, trace_apply .., .push he trace st⟩

theorem freshWith (c : Constraint) (stem : String) :
    Ends cfg (freshWith c stem) n [cfg.issue stem c n] (.ok (cfg.issue stem c n)) := by
  refine fun trace st hn => ⟨_, by rw [freshWith_apply, hn]; rfl, ?_, fun ht => ?_⟩
  · split <;> simp [hn]
  · rw [if_pos ht, freshVars_push]
    rfl

theorem freshType : Ends cfg freshType n [cfg.typeVar n] (.ok (cfg.typeVar n)) :=
  fun trace => freshWith .free cfg.typeStem trace

theorem freshRow (ls : Labels) :
    Ends cfg (freshRow ls) n [cfg.rowVar n ls] (.ok (cfg.rowVar n ls)) :=
  fun trace => freshWith (.lacks ls) cfg.rowStem trace

/-- Two computations in a row issue the variables of the one and then those of the other. -/
theorem bind_ok {a : α} {r : Except Fault β} (hx : Ends cfg x n vs (.ok a))
    (hf : Ends cfg (f a) (n + vs.length) ws r) : Ends cfg (x >>= f) n (vs ++ ws) r := by
  intro trace st hn
  obtain ⟨st', hst, hi⟩ := hx trace st hn
  obtain ⟨st'', hst', hi'⟩ := hf trace st' (by rw [hi.issued, hn])
  exact ⟨st'', by rw [bind_apply, hst]; exact hst', hi.trans hi'⟩

theorem bind_error {e : Fault} (hx : Ends cfg x n vs (.error e)) :
    Ends cfg (x >>= f) n vs (.error e) := by
  intro trace st hn
  obtain ⟨st', hst, hi⟩ := hx trace st hn
  exact ⟨st', by rw [bind_apply, hst]; rfl, hi⟩

variable {r : Except Fault α}

/-- A traced step that issues nothing may stand in front. -/
theorem trace_bind {e : TraceEvent} (he : e.freshVar? = none) (hx : Ends cfg x n vs r) :
    Ends cfg (InferM.trace e >>= fun _ => x) n vs r := (Ends.trace he).bind_ok hx

/-- A result may be put into another form at the end. -/
theorem map (g : α → β) (hx : Ends cfg x n vs r) :
    Ends cfg (do let a ← x; return g a) n vs (r.map g) := by
  cases r with
  | error e => exact hx.bind_error
  | ok a =>
    rw [← List.append_nil vs]
    exact hx.bind_ok (.pure _)

/-- The variables that a computation issues are those that its trace would show. -/
theorem issuedBy_eq (hx : Ends cfg x n vs r) {st : RunState} (hn : st.issued = n) :
    x.issuedBy cfg st = vs := by
  obtain ⟨st', hst, hi⟩ := hx true { st with log := #[] } hn
  have hlog : freshVars st'.log = vs := hi.logged rfl
  cases r with
  | ok a => rw [issuedBy, hst]; exact hlog
  | error f => rw [issuedBy, hst]; exact hlog

/-- A computation ends in one way only. -/
theorem unique {vs' : List TyVar} {r' : Except Fault α} (h : Ends cfg x n vs r)
    (h' : Ends cfg x n vs' r') : vs = vs' ∧ r = r' := by
  let st : RunState := { issued := n }
  refine ⟨(h.issuedBy_eq (rfl : st.issued = n)).symm.trans (h'.issuedBy_eq rfl), ?_⟩
  obtain ⟨st₁, hst, -⟩ := h cfg.trace st rfl
  obtain ⟨st₂, hst', -⟩ := h' cfg.trace st rfl
  have he := hst.symm.trans hst'
  cases r <;> cases r' <;> cases he <;> rfl

end Ends

/-- When `n` variables have been issued, the computation ends in one of the ways that `Q` and `E`
describe, whatever the rest of the state. -/
def Yields (cfg : Config) {α : Type} (x : InferM α) (n : Nat) (Q : List TyVar → α → Prop)
    (E : List TyVar → Fault → Prop) : Prop :=
  ∃ vs r, (match r with | .ok a => Q vs a | .error f => E vs f) ∧ Ends cfg x n vs r

namespace Yields

open InferM

variable {cfg : Config} {α β : Type} {n : Nat} {x : InferM α} {f : α → InferM β}

section

variable {Q Q' : List TyVar → α → Prop} {E E' : List TyVar → Fault → Prop}

theorem of_ends_ok (h : Yields cfg x n Q E) {vs : List TyVar} {a : α}
    (hx : Ends cfg x n vs (.ok a)) : Q vs a := by
  obtain ⟨us, r, hr, hrun⟩ := h
  obtain ⟨rfl, rfl⟩ := hx.unique hrun
  exact hr

theorem of_ends_error (h : Yields cfg x n Q E) {vs : List TyVar} {e : Fault}
    (hx : Ends cfg x n vs (.error e)) : E vs e := by
  obtain ⟨us, r, hr, hrun⟩ := h
  obtain ⟨rfl, rfl⟩ := hx.unique hrun
  exact hr

theorem of_ok (h : Yields cfg x n Q E) {st st' : RunState} (hn : st.issued = n) {a : α}
    (hx : x cfg st = .ok a st') :
    Q (x.issuedBy cfg st) a ∧ Issues cfg.trace st (x.issuedBy cfg st) st' := by
  obtain ⟨vs, r, hr, hrun⟩ := h
  rw [hrun.issuedBy_eq hn]
  obtain ⟨st'', hst, hi⟩ := hrun cfg.trace st hn
  cases r with
  | ok b =>
    obtain ⟨rfl, rfl⟩ := EStateM.Result.ok.inj (hx.symm.trans hst)
    exact ⟨hr, hi⟩
  | error e => cases hx.symm.trans hst

theorem of_error (h : Yields cfg x n Q E) {st st' : RunState} (hn : st.issued = n) {e : Fault}
    (hx : x cfg st = .error e st') :
    E (x.issuedBy cfg st) e ∧ Issues cfg.trace st (x.issuedBy cfg st) st' := by
  obtain ⟨vs, r, hr, hrun⟩ := h
  rw [hrun.issuedBy_eq hn]
  obtain ⟨st'', hst, hi⟩ := hrun cfg.trace st hn
  cases r with
  | ok b => cases hx.symm.trans hst
  | error e' =>
    obtain ⟨rfl, rfl⟩ := EStateM.Result.error.inj (hx.symm.trans hst)
    exact ⟨hr, hi⟩

theorem mono (h : Yields cfg x n Q E) (hQ : ∀ vs a, Q vs a → Q' vs a)
    (hE : ∀ vs e, E vs e → E' vs e) : Yields cfg x n Q' E' := by
  obtain ⟨vs, r, hr, hrun⟩ := h
  refine ⟨vs, r, ?_, hrun⟩
  cases r with
  | ok a => exact hQ vs a hr
  | error e => exact hE vs e hr

theorem pure {a : α} (h : Q [] a) : Yields cfg (pure a) n Q E := ⟨[], .ok a, h, Ends.pure a⟩

theorem throw {e : Fault} (h : E [] e) : Yields cfg (throw e : InferM α) n Q E :=
  ⟨[], .error e, h, Ends.throw e⟩

theorem fail {e : InferError} (h : E [] (.infer e)) : Yields cfg (fail e : InferM α) n Q E :=
  ⟨[], .error (.infer e), h, Ends.fail e⟩

/-- A traced step that issues nothing may stand in front. -/
theorem trace_bind {e : TraceEvent} (he : e.freshVar? = none) {y : InferM α}
    (h : Yields cfg y n Q E) : Yields cfg (trace e >>= fun _ => y) n Q E := by
  obtain ⟨vs, r, hr, hrun⟩ := h
  exact ⟨vs, r, hr, (Ends.trace he).bind_ok hrun⟩

end

section

variable {P : List TyVar → α → Prop} {F : List TyVar → Fault → Prop}
  {Q : List TyVar → β → Prop} {E : List TyVar → Fault → Prop}

/-- A computation behind another one goes on from what that one describes. -/
theorem bind (hx : Yields cfg x n P F)
    (hf : ∀ vs a, P vs a → Yields cfg (f a) (n + vs.length) (fun ws b => Q (vs ++ ws) b)
      fun ws e => E (vs ++ ws) e)
    (hF : ∀ vs e, F vs e → E vs e) : Yields cfg (x >>= f) n Q E := by
  obtain ⟨vs, r, hr, hrun⟩ := hx
  cases r with
  | error e => exact ⟨vs, .error e, hF vs e hr, hrun.bind_error⟩
  | ok a =>
    obtain ⟨ws, r, hr', hrun'⟩ := hf vs a hr
    exact ⟨vs ++ ws, r, hr', hrun.bind_ok hrun'⟩

theorem freshWith_bind {c : Constraint} {stem : String} {f : TyVar → InferM β}
    (h : Yields cfg (f (cfg.issue stem c n)) (n + 1)
      (fun ws b => Q (cfg.issue stem c n :: ws) b) fun ws e => E (cfg.issue stem c n :: ws) e) :
    Yields cfg (freshWith c stem >>= f) n Q E := by
  obtain ⟨ws, r, hr, hrun⟩ := h
  exact ⟨_ :: ws, r, hr, (Ends.freshWith c stem).bind_ok hrun⟩

theorem freshType_bind {f : TyVar → InferM β}
    (h : Yields cfg (f (cfg.typeVar n)) (n + 1) (fun ws b => Q (cfg.typeVar n :: ws) b)
      fun ws e => E (cfg.typeVar n :: ws) e) : Yields cfg (freshType >>= f) n Q E := by
  have hw : Yields cfg (freshWith .free cfg.typeStem >>= f) n Q E := freshWith_bind h
  exact hw

theorem freshRow_bind {ls : Labels} {f : TyVar → InferM β}
    (h : Yields cfg (f (cfg.rowVar n ls)) (n + 1) (fun ws b => Q (cfg.rowVar n ls :: ws) b)
      fun ws e => E (cfg.rowVar n ls :: ws) e) : Yields cfg (freshRow ls >>= f) n Q E := by
  have hw : Yields cfg (freshWith (.lacks ls) cfg.rowStem >>= f) n Q E := freshWith_bind h
  exact hw

end

end Yields

end RowTyping
