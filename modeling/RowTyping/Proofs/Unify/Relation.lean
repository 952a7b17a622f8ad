import RowTyping.Unify
import RowTyping.Proofs.RowOrder
import RowTyping.Proofs.Runs

/-!
# The runs of unification

`Unified cfg n t₁ t₂ vs s` holds when unification, started after `n` variables were issued,
succeeds with the substitution `s` and issues the variables `vs` on the way; `Refused cfg d n t₁ t₂
vs f` holds when it ends with the fault `f` within depth `d`. Both follow the cases of the
algorithm, with the state left out: a row is either found to hold the wanted label, or its end is
*opened* to make room for it (`Exposes`), and a variable is bound as its constraint admits
(`Binds`). `Leads` holds between the two types and those that unification goes on with.

`unifyWithin_yields` says that these are all the runs there are. Everything about unification is
proved by induction over the two relations.
-/

namespace RowTyping

open InferM

/-! ## Proper rows -/

/-- A row as a type again. -/
def Row.toTy (r : Row) : Ty := .extendRow r.fields (r.tail.elim .rowEmpty .var)

namespace Ty

/-- The labels of a chain differ, and it ends in the empty row or in a variable. -/
def IsProper (t : Ty) : Prop := ∃ r, t.decompose = .ok r

theorem decomposeAvoiding_ok {t : Ty} {seen : Labels} {r : Row}
    (h : t.decomposeAvoiding seen = .ok r) :
    t = r.toTy ∧ (r.fields.map Prod.fst).Nodup ∧ ∀ l ∈ r.fields.map Prod.fst, l ∉ seen := by
  induction t generalizing seen r with
  | rowExtend l f t _ iht =>
    rw [decomposeAvoiding] at h
    split at h
    · cases h
    · next hl =>
      cases ht : t.decomposeAvoiding (seen.insert l) with
      | error d => rw [ht] at h; cases h
      | ok r' =>
        rw [ht] at h
        cases h
        obtain ⟨he, hn, hs⟩ := iht ht
        refine ⟨by rw [he]; rfl, ?_, ?_⟩
        · refine List.nodup_cons.2 ⟨fun hm => hs l hm ?_, hn⟩
          exact OrdSet.mem_insert.2 (.inl rfl)
        · intro m hm
          rcases List.mem_cons.1 hm with rfl | hm
          · exact hl
          · exact fun hms => hs m hm (OrdSet.mem_insert.2 (.inr hms))
  | rowEmpty => cases h; exact ⟨rfl, .nil, fun l hl => by cases hl⟩
  | var v => cases h; exact ⟨rfl, .nil, fun l hl => by cases hl⟩
  | _ => cases h

theorem decompose_ok {t : Ty} {r : Row} (h : t.decompose = .ok r) :
    t = r.toTy ∧ (r.fields.map Prod.fst).Nodup :=
  ⟨(decomposeAvoiding_ok h).1, (decomposeAvoiding_ok h).2.1⟩

theorem rowEnd_extendRow (pre : List (String × Ty)) (t : Ty) :
    (extendRow pre t).rowEnd = t.rowEnd := by
  induction pre with
  | nil => rfl
  | cons e pre ih => exact ih

/-- The end of a proper row is the one that the bare walk along its fields finds. -/
theorem rowEndVar?_of_decompose {t : Ty} {r : Row} (h : t.decompose = .ok r) :
    t.rowEndVar? = r.tail := by
  rw [(decompose_ok h).1, Row.toTy, rowEndVar?, rowEnd_extendRow]
  cases r.tail <;> rfl

/-- What a run makes of a row it wants to take apart. -/
theorem properRow_yields {cfg : Config} {n : Nat} (t : Ty) {Q : List TyVar → Row → Prop}
    {E : List TyVar → Fault → Prop} (hQ : ∀ r, t.decompose = .ok r → Q [] r)
    (hE : ∀ d, t.decompose = .error d → E [] d.toFault) : Yields cfg (properRow t) n Q E := by
  unfold properRow
  cases h : t.decompose with
  | ok r => exact .pure (hQ r h)
  | error d =>
    cases d with
    | repeated l => exact .fail (hE _ h)
    | badEnd e => exact .throw (hE _ h)

end Ty

/-! ## Binding a variable -/

/-- A variable is bound to a type in which it does not occur. -/
inductive Binds (cfg : Config) (n : Nat) (u : TyVar) (t : Ty) : List TyVar → Subst → Prop
  /-- An unconstrained variable may be bound to anything. -/
  | type : u ∉ t.freeVars → u.constraint = .free → Binds cfg n u t [] (.singleton u t)
  /-- A constrained variable may be bound to a closed row without the labels it lacks. -/
  | closed {ls : Labels} {fields : List (String × Ty)} : u ∉ t.freeVars →
      u.constraint = .lacks ls → t.decompose = .ok ⟨fields, none⟩ →
      (∀ l ∈ fields.map Prod.fst, l ∉ ls) → Binds cfg n u t [] (.singleton u t)
  /-- The end of an open row comes to lack the same labels. -/
  | opened {ls : Labels} {fields : List (String × Ty)} {w : TyVar} : u ∉ t.freeVars →
      u.constraint = .lacks ls → t.decompose = .ok ⟨fields, some w⟩ →
      (∀ l ∈ fields.map Prod.fst, l ∉ ls) →
      Binds cfg n u t [cfg.rowVar n (ls ∪ w.labels)]
        (Subst.compose (.singleton w (.var (cfg.rowVar n (ls ∪ w.labels)))) (.singleton u t))

/-- A variable cannot be bound to a type. -/
inductive BindRefused (u : TyVar) (t : Ty) : Fault → Prop
  | occurs : u ∈ t.freeVars → BindRefused u t (.infer (.occurs u t))
  | notRow {ls : Labels} : u.constraint = .lacks ls → t.isRow = false →
      BindRefused u t (.infer (.mismatch (.var u) t))
  | improper {d : RowDefect} {ls : Labels} : u.constraint = .lacks ls → t.isRow = true →
      t.decompose = .error d → BindRefused u t d.toFault
  | clash {ls : Labels} {r : Row} {l : String} : u.constraint = .lacks ls →
      t.decompose = .ok r → l ∈ ls → l ∈ r.fields.map Prod.fst →
      BindRefused u t (.infer (.duplicateLabels (ls ∩ r.labels)))

theorem bindVar_yields {cfg : Config} {n : Nat} (u : TyVar) (t : Ty) :
    Yields cfg (bindVar u t) n (Binds cfg n u t) fun vs f => vs = [] ∧ BindRefused u t f := by
  unfold bindVar
  split
  · next hu => exact .fail ⟨rfl, .occurs hu⟩
  · next hu =>
    split
    · next hc => exact .pure (.type hu hc)
    · next ls hc =>
      unfold bindRow
      split
      · next hr => exact .fail ⟨rfl, .notRow hc (by simpa using hr)⟩
      · next hr =>
        refine (Ty.properRow_yields t (Q := fun vs r => vs = [] ∧ t.decompose = .ok r)
          (E := fun vs f => vs = [] ∧ BindRefused u t f) (fun r hd => ⟨rfl, hd⟩)
          fun d hd => ⟨rfl, .improper hc (by simpa using hr) hd⟩).bind ?_ fun _ _ h => h
        rintro _ r ⟨rfl, hd⟩
        show Yields cfg _ n _ _
        simp only [List.nil_append]
        have hmem : ∀ {l : String}, l ∈ ls ∩ r.labels ↔ l ∈ ls ∧ l ∈ r.fields.map Prod.fst :=
          OrdSet.mem_inter.trans (and_congr_right fun _ => OrdSet.mem_ofList)
        split
        · next hcl =>
          cases hls : (ls ∩ r.labels).toList with
          | nil => simp [OrdSet.isEmpty, hls] at hcl
          | cons l _ =>
            have hl := hmem.1 (OrdSet.mem_toList.1 (hls ▸ List.mem_cons_self))
            exact .fail ⟨rfl, .clash hc hd hl.1 hl.2⟩
        · next hcl =>
          have hdis : ∀ l ∈ r.fields.map Prod.fst, l ∉ ls := by
            intro l hl hls
            have he := OrdSet.isEmpty_iff.1 (by simpa using hcl)
            exact OrdSet.not_mem_empty l (he ▸ hmem.2 ⟨hls, hl⟩)
          obtain ⟨fields, tail⟩ := r
          cases tail with
          | none => exact .pure (.closed hu hc hd hdis)
          | some w => exact .freshRow_bind (.pure (.opened hu hc hd hdis))

/-! ## Exposing a label -/

/-- The substitution that opens the end `w` of a row for one more field. -/
def Config.opening (cfg : Config) (n : Nat) (w : TyVar) (label : String) : Subst :=
  .singleton w (.rowExtend label (.var (cfg.typeVar (n + 1)))
    (.var (cfg.rowVar n (w.labels ∪ .singleton label))))

/-- The end of an opened row is not the end it had: it lacks the label. -/
theorem rowVar_union_ne {cfg : Config} {n : Nat} {w : TyVar} {label : String}
    (h : label ∉ w.labels) : w ≠ cfg.rowVar n (w.labels ∪ .singleton label) := by
  intro he
  have hl : label ∈ (cfg.rowVar n (w.labels ∪ .singleton label)).labels :=
    OrdSet.mem_union.2 (.inr (OrdSet.mem_singleton.2 rfl))
  exact h (he ▸ hl)

/-- A label is brought to the front of a row. -/
inductive Exposes (cfg : Config) (n : Nat) (row : Ty) (label : String) :
    List TyVar → Exposed → Prop
  /-- The row holds the label behind the fields `pre`. -/
  | found (pre : List (String × Ty)) {f t : Ty} : row = .extendRow pre (.rowExtend label f t) →
      label ∉ pre.map Prod.fst → Exposes cfg n row label [] ⟨f, .extendRow pre t, .empty⟩
  /-- The row does not hold the label, and its end may still come to hold it. -/
  | opened (pre : List (String × Ty)) {w : TyVar} : row = .extendRow pre (.var w) → pre ≠ [] →
      label ∉ pre.map Prod.fst → label ∉ w.labels →
      Exposes cfg n row label
        [cfg.rowVar n (w.labels ∪ .singleton label), cfg.typeVar (n + 1)]
        ⟨.var (cfg.typeVar (n + 1)),
          .extendRow pre (.var (cfg.rowVar n (w.labels ∪ .singleton label))),
          cfg.opening n w label⟩

/-- A label cannot be brought to the front of a row. -/
inductive ExposeRefused (row : Ty) (label : String) : Fault → Prop
  | missing (pre : List (String × Ty)) : row = .extendRow pre .rowEmpty →
      label ∉ pre.map Prod.fst → ExposeRefused row label (.infer (.labelNotFound label))
  | excluded (pre : List (String × Ty)) {w : TyVar} : row = .extendRow pre (.var w) → pre ≠ [] →
      label ∉ pre.map Prod.fst → label ∈ w.labels →
      ExposeRefused row label (.infer (.duplicateLabels (.singleton label)))
  | bareVar {v : TyVar} : row = .var v → ExposeRefused row label (.notARow .expose row)
  | badEnd (pre : List (String × Ty)) {t : Ty} : row = .extendRow pre t →
      label ∉ pre.map Prod.fst → t.isRow = false → ExposeRefused row label (.notARow .expose t)

theorem Exposes.later {cfg : Config} {n : Nat} {tail : Ty} {label other : String} {field : Ty}
    {vs : List TyVar} {e : Exposed} (h : Exposes cfg n tail label vs e) (hne : other ≠ label) :
    Exposes cfg n (.rowExtend other field tail) label vs
      { e with rest := .rowExtend other field e.rest } := by
  have hcons : ∀ {pre : List (String × Ty)}, label ∉ pre.map Prod.fst →
      label ∉ ((other, field) :: pre).map Prod.fst := by
    intro pre hpre hm
    rcases List.mem_cons.1 hm with he | hm
    · exact hne he.symm
    · exact hpre hm
  cases h with
  | @found pre f t ht hl => exact .found ((other, field) :: pre) (by rw [ht]; rfl) (hcons hl)
  | @opened pre w ht _ hl hw =>
    exact .opened ((other, field) :: pre) (by rw [ht]; rfl) (by simp) (hcons hl) hw

theorem ExposeRefused.later {tail : Ty} {label other : String} {field : Ty} {f : Fault}
    (h : ExposeRefused tail label f) (hne : other ≠ label) (hv : ∀ v, tail ≠ .var v) :
    ExposeRefused (.rowExtend other field tail) label f := by
  have hcons : ∀ {pre : List (String × Ty)}, label ∉ pre.map Prod.fst →
      label ∉ ((other, field) :: pre).map Prod.fst := by
    intro pre hpre hm
    rcases List.mem_cons.1 hm with he | hm
    · exact hne he.symm
    · exact hpre hm
  cases h with
  | @missing pre ht hl => exact .missing ((other, field) :: pre) (by rw [ht]; rfl) (hcons hl)
  | @excluded pre w ht _ hl hw =>
    exact .excluded ((other, field) :: pre) (by rw [ht]; rfl) (by simp) (hcons hl) hw
  | @bareVar v ht => exact absurd ht (hv v)
  | @badEnd pre t ht hl hr =>
    exact .badEnd ((other, field) :: pre) (by rw [ht]; rfl) (hcons hl) hr

theorem expose_yields {cfg : Config} {n : Nat} (row : Ty) (label : String) :
    Yields cfg (expose row label) n (Exposes cfg n row label)
      fun vs f => vs = [] ∧ ExposeRefused row label f := by
  induction row with
  | rowEmpty => exact .trace_bind rfl (.fail ⟨rfl, .missing [] rfl (by simp)⟩)
  | rowExtend other field tail _ ih =>
    refine .trace_bind rfl ?_
    by_cases ho : other = label
    · subst ho
      show Yields cfg (if other = other then _ else _) n _ _
      rw [if_pos rfl]
      exact .pure (.found [] rfl (by simp))
    · show Yields cfg (if other = label then _ else _) n _ _
      rw [if_neg ho]
      have hpre : label ∉ [(other, field)].map Prod.fst := by simpa using fun h => ho h.symm
      cases tail with
      | var w =>
        show Yields cfg (if label ∈ w.labels then _ else _) n _ _
        split
        · next hw => exact .fail ⟨rfl, .excluded [(other, field)] rfl (by simp) hpre hw⟩
        · next hw =>
          exact .freshRow_bind (.freshType_bind
            (.pure (.opened [(other, field)] rfl (by simp) hpre hw)))
      | _ =>
        refine ih.bind (fun vs e he => .pure ?_) fun vs f hf => ⟨hf.1, hf.2.later ho ?_⟩
        · rw [List.append_nil]
          exact he.later ho
        · rintro v ⟨⟩
  | var v => exact .trace_bind rfl (.throw ⟨rfl, .bareVar rfl⟩)
  | _ => exact .trace_bind rfl (.throw ⟨rfl, .badEnd [] rfl (by simp) rfl⟩)

/-! ## Unification -/

/-- The two types have different constructors, neither is a variable, and they are not a row with
fields and the empty row in this order. -/
def Clash : Ty → Ty → Prop
  | .var _, _ | _, .var _ => False
  | .int, .int | .bool, .bool | .rowEmpty, .rowEmpty => False
  | .fn .., .fn .. | .record _, .record _ => False
  | .rowExtend .., .rowExtend .. | .rowExtend .., .rowEmpty => False
  | _, _ => True

/-- Unification succeeds. -/
inductive Unified (cfg : Config) : Nat → Ty → Ty → List TyVar → Subst → Prop
  | sameVar {n : Nat} {u : TyVar} : Unified cfg n (.var u) (.var u) [] .empty
  | typeVars {n : Nat} {u v : TyVar} : u ≠ v → u.constraint = .free → v.constraint = .free →
      Unified cfg n (.var u) (.var v) [] (.singleton u (.var v))
  | rowVars {n : Nat} {u v : TyVar} : u ≠ v → ¬(u.constraint = .free ∧ v.constraint = .free) →
      Unified cfg n (.var u) (.var v) [cfg.rowVar n (u.labels ∪ v.labels)]
        ((OrderedMap.singleton u (.var (cfg.rowVar n (u.labels ∪ v.labels)))).insert v
          (.var (cfg.rowVar n (u.labels ∪ v.labels))))
  | bindLeft {n : Nat} {u : TyVar} {t : Ty} {vs : List TyVar} {s : Subst} : (∀ v, t ≠ .var v) →
      Binds cfg n u t vs s → Unified cfg n (.var u) t vs s
  | bindRight {n : Nat} {u : TyVar} {t : Ty} {vs : List TyVar} {s : Subst} : (∀ v, t ≠ .var v) →
      Binds cfg n u t vs s → Unified cfg n t (.var u) vs s
  | int {n : Nat} : Unified cfg n .int .int [] .empty
  | bool {n : Nat} : Unified cfg n .bool .bool [] .empty
  | rowEmpty {n : Nat} : Unified cfg n .rowEmpty .rowEmpty [] .empty
  | fn {n : Nat} {a₁ a₂ r₁ r₂ : Ty} {vs₁ vs₂ : List TyVar} {s₁ s₂ : Subst} :
      Unified cfg n a₁ a₂ vs₁ s₁ →
      Unified cfg (n + vs₁.length) (r₁.subst s₁) (r₂.subst s₁) vs₂ s₂ →
      Unified cfg n (.fn a₁ r₁) (.fn a₂ r₂) (vs₁ ++ vs₂) (s₂.compose s₁)
  | record {n : Nat} {r₁ r₂ : Ty} {vs : List TyVar} {s : Subst} : Unified cfg n r₁ r₂ vs s →
      Unified cfg n (.record r₁) (.record r₂) vs s
  /-- The second row holds the first label of the first one. -/
  | rowFound {n : Nat} {label : String} {field tail row f t : Ty} {pre : List (String × Ty)}
      {vs₁ vs₂ : List TyVar} {s₁ s₂ : Subst} :
      (Ty.rowExtend label field tail).IsProper → row.IsProper →
      row = .extendRow pre (.rowExtend label f t) → label ∉ pre.map Prod.fst →
      Unified cfg n field f vs₁ s₁ →
      Unified cfg (n + vs₁.length) (tail.subst s₁) ((Ty.extendRow pre t).subst s₁) vs₂ s₂ →
      Unified cfg n (.rowExtend label field tail) row (vs₁ ++ vs₂) (s₂.compose s₁)
  /-- The second row is opened to hold the first label of the first one. -/
  | rowOpened {n : Nat} {label : String} {field tail row : Ty} {pre : List (String × Ty)}
      {w : TyVar} {vs₁ vs₂ : List TyVar} {s₁ s₂ : Subst} :
      (Ty.rowExtend label field tail).IsProper → row.IsProper →
      row = .extendRow pre (.var w) → pre ≠ [] → label ∉ pre.map Prod.fst → label ∉ w.labels →
      tail.rowEndVar? ≠ some w →
      Unified cfg (n + 2) (field.subst (cfg.opening n w label))
        ((Ty.var (cfg.typeVar (n + 1))).subst (cfg.opening n w label)) vs₁ s₁ →
      Unified cfg (n + 2 + vs₁.length) (tail.subst (s₁.compose (cfg.opening n w label)))
        ((Ty.extendRow pre (.var (cfg.rowVar n (w.labels ∪ .singleton label)))).subst
          (s₁.compose (cfg.opening n w label))) vs₂ s₂ →
      Unified cfg n (.rowExtend label field tail) row
        (cfg.rowVar n (w.labels ∪ .singleton label) :: cfg.typeVar (n + 1) :: (vs₁ ++ vs₂))
        (s₂.compose (s₁.compose (cfg.opening n w label)))

/-- Unification ends with a fault, at the latest at the given depth. -/
inductive Refused (cfg : Config) : Nat → Nat → Ty → Ty → List TyVar → Fault → Prop
  | tooDeep {n : Nat} {t₁ t₂ : Ty} : Refused cfg 0 n t₁ t₂ [] .outOfFuel
  | clash {d n : Nat} {t₁ t₂ : Ty} : Clash t₁ t₂ →
      Refused cfg (d + 1) n t₁ t₂ [] (.infer (.mismatch t₁ t₂))
  | bindLeft {d n : Nat} {u : TyVar} {t : Ty} {f : Fault} : (∀ v, t ≠ .var v) →
      BindRefused u t f → Refused cfg (d + 1) n (.var u) t [] f
  | bindRight {d n : Nat} {u : TyVar} {t : Ty} {f : Fault} : (∀ v, t ≠ .var v) →
      BindRefused u t f → Refused cfg (d + 1) n t (.var u) [] f
  | fnArg {d n : Nat} {a₁ a₂ r₁ r₂ : Ty} {vs : List TyVar} {f : Fault} :
      Refused cfg d n a₁ a₂ vs f → Refused cfg (d + 1) n (.fn a₁ r₁) (.fn a₂ r₂) vs f
  | fnRet {d n : Nat} {a₁ a₂ r₁ r₂ : Ty} {vs₁ vs₂ : List TyVar} {s₁ : Subst} {f : Fault} :
      Unified cfg n a₁ a₂ vs₁ s₁ →
      Refused cfg d (n + vs₁.length) (r₁.subst s₁) (r₂.subst s₁) vs₂ f →
      Refused cfg (d + 1) n (.fn a₁ r₁) (.fn a₂ r₂) (vs₁ ++ vs₂) f
  | record {d n : Nat} {r₁ r₂ : Ty} {vs : List TyVar} {f : Fault} : Refused cfg d n r₁ r₂ vs f →
      Refused cfg (d + 1) n (.record r₁) (.record r₂) vs f
  | rowImproper {d n : Nat} {label : String} {field tail row : Ty} {b : RowDefect} :
      (Ty.rowExtend label field tail).decompose = .error b ∨ row.decompose = .error b →
      Refused cfg (d + 1) n (.rowExtend label field tail) row [] b.toFault
  | rowExpose {d n : Nat} {label : String} {field tail row : Ty} {f : Fault} :
      (Ty.rowExtend label field tail).IsProper → row.IsProper → (∀ v, row ≠ .var v) →
      ExposeRefused row label f →
      Refused cfg (d + 1) n (.rowExtend label field tail) row [] f
  /-- Opening the second row would change the end of the first one. -/
  | rowShared {d n : Nat} {label : String} {field tail row : Ty} {pre : List (String × Ty)}
      {w : TyVar} : row = .extendRow pre (.var w) → pre ≠ [] → label ∉ w.labels →
      (Ty.rowExtend label field tail).IsProper → tail.rowEndVar? = some w →
      Refused cfg (d + 1) n (.rowExtend label field tail) row
        [cfg.rowVar n (w.labels ∪ .singleton label), cfg.typeVar (n + 1)]
        (.infer (.recursiveRow w))
  | foundField {d n : Nat} {label : String} {field tail row f t : Ty} {pre : List (String × Ty)}
      {vs : List TyVar} {e : Fault} : (Ty.rowExtend label field tail).IsProper → row.IsProper →
      row = .extendRow pre (.rowExtend label f t) → label ∉ pre.map Prod.fst →
      Refused cfg d n field f vs e →
      Refused cfg (d + 1) n (.rowExtend label field tail) row vs e
  | foundTail {d n : Nat} {label : String} {field tail row f t : Ty} {pre : List (String × Ty)}
      {vs₁ vs₂ : List TyVar} {s₁ : Subst} {e : Fault} :
      (Ty.rowExtend label field tail).IsProper → row.IsProper →
      row = .extendRow pre (.rowExtend label f t) → label ∉ pre.map Prod.fst →
      Unified cfg n field f vs₁ s₁ →
      Refused cfg d (n + vs₁.length) (tail.subst s₁) ((Ty.extendRow pre t).subst s₁) vs₂ e →
      Refused cfg (d + 1) n (.rowExtend label field tail) row (vs₁ ++ vs₂) e
  | openedField {d n : Nat} {label : String} {field tail row : Ty} {pre : List (String × Ty)}
      {w : TyVar} {vs : List TyVar} {e : Fault} :
      (Ty.rowExtend label field tail).IsProper → row.IsProper →
      row = .extendRow pre (.var w) → pre ≠ [] → label ∉ pre.map Prod.fst → label ∉ w.labels →
      tail.rowEndVar? ≠ some w →
      Refused cfg d (n + 2) (field.subst (cfg.opening n w label))
        ((Ty.var (cfg.typeVar (n + 1))).subst (cfg.opening n w label)) vs e →
      Refused cfg (d + 1) n (.rowExtend label field tail) row
        (cfg.rowVar n (w.labels ∪ .singleton label) :: cfg.typeVar (n + 1) :: vs) e
  | openedTail {d n : Nat} {label : String} {field tail row : Ty} {pre : List (String × Ty)}
      {w : TyVar} {vs₁ vs₂ : List TyVar} {s₁ : Subst} {e : Fault} :
      (Ty.rowExtend label field tail).IsProper → row.IsProper →
      row = .extendRow pre (.var w) → pre ≠ [] → label ∉ pre.map Prod.fst → label ∉ w.labels →
      tail.rowEndVar? ≠ some w →
      Unified cfg (n + 2) (field.subst (cfg.opening n w label))
        ((Ty.var (cfg.typeVar (n + 1))).subst (cfg.opening n w label)) vs₁ s₁ →
      Refused cfg d (n + 2 + vs₁.length) (tail.subst (s₁.compose (cfg.opening n w label)))
        ((Ty.extendRow pre (.var (cfg.rowVar n (w.labels ∪ .singleton label)))).subst
          (s₁.compose (cfg.opening n w label))) vs₂ e →
      Refused cfg (d + 1) n (.rowExtend label field tail) row
        (cfg.rowVar n (w.labels ∪ .singleton label) :: cfg.typeVar (n + 1) :: (vs₁ ++ vs₂)) e

/-- Unification of two types, when `n` variables have been issued, goes on with two others: parts of
them, after the substitutions found on the way. -/
inductive Leads (cfg : Config) : Nat → Ty → Ty → Nat → Ty → Ty → Prop
  | fnArg {n : Nat} {a₁ a₂ r₁ r₂ : Ty} : Leads cfg n (.fn a₁ r₁) (.fn a₂ r₂) n a₁ a₂
  | fnRet {n : Nat} {a₁ a₂ r₁ r₂ : Ty} {vs : List TyVar} {s : Subst} :
      Unified cfg n a₁ a₂ vs s →
      Leads cfg n (.fn a₁ r₁) (.fn a₂ r₂) (n + vs.length) (r₁.subst s) (r₂.subst s)
  | record {n : Nat} {r₁ r₂ : Ty} : Leads cfg n (.record r₁) (.record r₂) n r₁ r₂
  | foundField {n : Nat} {label : String} {field tail f t : Ty} {pre : List (String × Ty)} :
      label ∉ pre.map Prod.fst →
      Leads cfg n (.rowExtend label field tail) (.extendRow pre (.rowExtend label f t)) n field f
  | foundTail {n : Nat} {label : String} {field tail f t : Ty} {pre : List (String × Ty)}
      {vs : List TyVar} {s : Subst} : label ∉ pre.map Prod.fst → Unified cfg n field f vs s →
      Leads cfg n (.rowExtend label field tail) (.extendRow pre (.rowExtend label f t))
        (n + vs.length) (tail.subst s) ((Ty.extendRow pre t).subst s)
  | openedField {n : Nat} {label : String} {field tail : Ty} {pre : List (String × Ty)}
      {w : TyVar} : label ∉ pre.map Prod.fst → label ∉ w.labels →
      Leads cfg n (.rowExtend label field tail) (.extendRow pre (.var w)) (n + 2)
        (field.subst (cfg.opening n w label))
        ((Ty.var (cfg.typeVar (n + 1))).subst (cfg.opening n w label))
  | openedTail {n : Nat} {label : String} {field tail : Ty} {pre : List (String × Ty)} {w : TyVar}
      {vs : List TyVar} {s : Subst} : label ∉ pre.map Prod.fst → label ∉ w.labels →
      Unified cfg (n + 2) (field.subst (cfg.opening n w label))
        ((Ty.var (cfg.typeVar (n + 1))).subst (cfg.opening n w label)) vs s →
      Leads cfg n (.rowExtend label field tail) (.extendRow pre (.var w)) (n + 2 + vs.length)
        (tail.subst (s.compose (cfg.opening n w label)))
        ((Ty.extendRow pre (.var (cfg.rowVar n (w.labels ∪ .singleton label)))).subst
          (s.compose (cfg.opening n w label)))

theorem mergeVars_yields {cfg : Config} {n : Nat} (u v : TyVar) :
    Yields cfg (mergeVars u v) n (Unified cfg n (.var u) (.var v)) fun _ _ => False := by
  unfold mergeVars
  split
  · next h => subst h; exact .pure .sameVar
  · next h =>
    split
    · next hf => exact .pure (.typeVars h hf.1 hf.2)
    · next hf => exact .freshRow_bind (.pure (.rowVars h hf))

theorem Subst.find?_contains_empty (vs : List TyVar) :
    vs.find? (OrderedMap.contains (.empty : Subst)) = none :=
  List.find?_eq_none.2 fun v _ => by simp [OrderedMap.contains, OrderedMap.keys, OrderedMap.empty]

section Step

variable {cfg : Config} {d : Nat} {unify : Ty → Ty → InferM Subst}
  (hu : ∀ n t₁ t₂, Yields cfg (unify t₁ t₂) n (Unified cfg n t₁ t₂) (Refused cfg d n t₁ t₂))

/-- Opening a row takes away its end and no other variable. -/
theorem Config.find?_opening {n : Nat} {w : TyVar} {label : String} (hw : label ∉ w.labels)
    (last? : Option TyVar) :
    (last?.toList ++ [cfg.rowVar n (w.labels ∪ .singleton label)]).find?
      (OrderedMap.contains (cfg.opening n w label)) = if last? = some w then some w else none := by
  have hcont : ∀ v, OrderedMap.contains (cfg.opening n w label) v = true ↔ v = w := fun v => by
    simp [OrderedMap.contains, OrderedMap.keys, Config.opening, OrderedMap.singleton]
  split
  · next hl =>
    rw [hl, Option.toList_some, List.singleton_append, List.find?_cons_of_pos]
    exact (hcont w).2 rfl
  · next hl =>
    refine List.find?_eq_none.2 fun v hv hc => ?_
    rw [hcont] at hc
    subst hc
    rcases List.mem_append.1 hv with hv | hv
    · exact hl (Option.mem_toList.1 hv)
    · exact rowVar_union_ne hw (List.mem_singleton.1 hv)

include hu in
theorem unifyRows_yields {n : Nat} (label : String) (field tail : Ty) {row : Ty}
    (hv : ∀ v, row ≠ .var v) :
    Yields cfg (unifyRows unify label field tail row) n
      (Unified cfg n (.rowExtend label field tail) row)
      (Refused cfg (d + 1) n (.rowExtend label field tail) row) := by
  unfold unifyRows
  refine (Ty.properRow_yields _ (Q := fun vs r => vs = [] ∧
    (Ty.rowExtend label field tail).decompose = .ok r) (fun r h => ⟨rfl, h⟩)
    fun b h => .rowImproper (.inl h)).bind ?_ fun _ _ h => h
  rintro _ r₁ ⟨rfl, h₁⟩
  simp only [List.nil_append, List.length_nil, Nat.add_zero]
  refine (Ty.properRow_yields _ (Q := fun vs _ => vs = [] ∧ row.IsProper)
    (fun r h => ⟨rfl, r, h⟩) fun b h => .rowImproper (.inr h)).bind ?_ fun _ _ h => h
  rintro _ - ⟨rfl, h₂⟩
  simp only [List.nil_append, List.length_nil, Nat.add_zero]
  refine (expose_yields row label).bind ?_ ?_
  · intro vs e he
    cases he with
    | @found pre f t hrow hl =>
      simp only [Subst.find?_contains_empty, Ty.subst_empty, Subst.compose_empty, List.nil_append]
      refine (hu n field f).bind (fun vs₁ s₁ hs₁ => ?_) fun vs e he =>
        .foundField ⟨r₁, h₁⟩ h₂ hrow hl he
      refine (hu _ _ _).bind (fun vs₂ s₂ hs₂ => .pure ?_) fun vs e he =>
        .foundTail ⟨r₁, h₁⟩ h₂ hrow hl hs₁ he
      rw [List.append_nil]
      exact .rowFound ⟨r₁, h₁⟩ h₂ hrow hl hs₁ hs₂
    | @opened pre w hrow hne hl hw =>
      have hend : (Ty.rowExtend label field tail).rowEndVar? = r₁.tail :=
        Ty.rowEndVar?_of_decompose h₁
      have hrest : (Ty.extendRow pre (.var (cfg.rowVar n (w.labels ∪ .singleton label)))).rowEndVar?
          = some (cfg.rowVar n (w.labels ∪ .singleton label)) := by
        rw [Ty.rowEndVar?, Ty.rowEnd_extendRow]
        rfl
      simp only [hrest, Option.toList_some, Config.find?_opening hw]
      -- Rows that share their end are refused before any of their fields are unified.
      by_cases hsh : r₁.tail = some w
      · rw [if_pos hsh]
        exact .fail (.rowShared hrow hne hw ⟨r₁, h₁⟩ (hend.trans hsh))
      · rw [if_neg hsh]
        have hne' : tail.rowEndVar? ≠ some w := hend ▸ hsh
        refine (hu (n + 2) _ _).bind (fun vs₁ s₁ hs₁ => ?_) fun vs e he =>
          .openedField ⟨r₁, h₁⟩ h₂ hrow hne hl hw hne' he
        refine (hu _ _ _).bind (fun vs₂ s₂ hs₂ => .pure ?_) fun vs e he => ?_
        case refine_2 =>
          show Refused cfg (d + 1) n _ row (_ :: _ :: (vs₁ ++ vs)) e
          exact .openedTail ⟨r₁, h₁⟩ h₂ hrow hne hl hw hne' hs₁ he
        rw [List.append_nil]
        show Unified cfg n _ row (_ :: _ :: (vs₁ ++ vs₂)) _
        exact .rowOpened ⟨r₁, h₁⟩ h₂ hrow hne hl hw hne' hs₁ hs₂
  · rintro _ f ⟨rfl, hf⟩
    exact .rowExpose ⟨r₁, h₁⟩ h₂ hv hf

include hu in
theorem unifyStep_yields {n : Nat} (t₁ t₂ : Ty) :
    Yields cfg (unifyStep unify t₁ t₂) n (Unified cfg n t₁ t₂) (Refused cfg (d + 1) n t₁ t₂) := by
  have bindLeft : ∀ {u : TyVar} {t : Ty}, (∀ v, t ≠ .var v) → Yields cfg (bindVar u t) n
      (Unified cfg n (.var u) t) (Refused cfg (d + 1) n (.var u) t) := fun hv =>
    (bindVar_yields _ _).mono (fun _ _ h => .bindLeft hv h) fun vs f h => h.1 ▸ .bindLeft hv h.2
  have bindRight : ∀ {u : TyVar} {t : Ty}, (∀ v, t ≠ .var v) → Yields cfg (bindVar u t) n
      (Unified cfg n t (.var u)) (Refused cfg (d + 1) n t (.var u)) := fun hv =>
    (bindVar_yields _ _).mono (fun _ _ h => .bindRight hv h) fun vs f h => h.1 ▸ .bindRight hv h.2
  refine .trace_bind rfl ?_
  cases t₁ with
  | fn a₁ r₁ =>
    cases t₂ with
    | fn a₂ r₂ =>
      refine (hu n a₁ a₂).bind (fun vs₁ s₁ hs₁ => ?_) fun vs f hf => .fnArg hf
      refine (hu _ _ _).bind (fun vs₂ s₂ hs₂ => .pure ?_) fun vs f hf => .fnRet hs₁ hf
      rw [List.append_nil]
      exact .fn hs₁ hs₂
    | var v => exact bindRight (by simp)
    | _ => exact .fail (.clash trivial)
  | var u =>
    cases t₂ with
    | var v => exact (mergeVars_yields u v).mono (fun _ _ h => h) fun _ _ h => h.elim
    | _ => exact bindLeft (by simp)
  | record r₁ =>
    cases t₂ with
    | record r₂ => exact (hu n r₁ r₂).mono (fun _ _ h => .record h) fun _ _ h => .record h
    | var v => exact bindRight (by simp)
    | _ => exact .fail (.clash trivial)
  | rowExtend l f t =>
    cases t₂ with
    | rowExtend l' f' t' => exact unifyRows_yields hu l f t (by simp)
    | rowEmpty => exact unifyRows_yields hu l f t (by simp)
    | var v => exact bindRight (by simp)
    | _ => exact .fail (.clash trivial)
  | int =>
    cases t₂ with
    | int => exact .pure .int
    | var v => exact bindRight (by simp)
    | _ => exact .fail (.clash trivial)
  | bool =>
    cases t₂ with
    | bool => exact .pure .bool
    | var v => exact bindRight (by simp)
    | _ => exact .fail (.clash trivial)
  | rowEmpty =>
    cases t₂ with
    | rowEmpty => exact .pure .rowEmpty
    | var v => exact bindRight (by simp)
    | _ => exact .fail (.clash trivial)

end Step

/-- The runs of unification are those of the two relations. -/
theorem unifyWithin_yields (cfg : Config) (d n : Nat) (t₁ t₂ : Ty) :
    Yields cfg (unifyWithin d t₁ t₂) n (Unified cfg n t₁ t₂) (Refused cfg d n t₁ t₂) := by
  induction d generalizing n t₁ t₂ with
  | zero => exact .throw .tooDeep
  | succ d ih => exact unifyStep_yields ih t₁ t₂

end RowTyping
