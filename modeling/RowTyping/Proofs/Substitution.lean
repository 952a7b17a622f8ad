import RowTyping.Env

/-!
# How substitutions act

`s.app v` is what a substitution puts in the place of one variable; everything a substitution
does to a type, a scheme or an environment follows from it. Composition does in one step what its
parts do in two, except for a variable that both parts bind: there the newer part decides alone
(`Subst.app_compose`), so the two-step law (`Ty.subst_compose`) asks that no variable is bound
twice.

A substitution is *solved* when none of its variables occurs in its types. Solved substitutions
compose as long as the newer one mentions no variable of the older one (`Subst.Solved.compose`).
-/

namespace RowTyping

/-! ## Entries of finite maps -/

namespace OrderedMap

universe u v

variable {κ : Type u} {α : Type v} [DecidableEq κ]

theorem lookup_eq_some_iff {l : List (κ × α)} (hl : (l.map Prod.fst).Nodup) {k : κ} {a : α} :
    l.lookup k = some a ↔ (k, a) ∈ l := by
  induction l with
  | nil => simp
  | cons e l ih =>
    obtain ⟨i, b⟩ := e
    obtain ⟨hi, hl'⟩ := List.nodup_cons.1 hl
    rw [lookup_cons]
    by_cases h : k = i
    · subst h
      have hka : (k, a) ∉ l := fun hm => hi (List.mem_map.2 ⟨(k, a), hm, rfl⟩)
      simp [hka, eq_comm]
    · simp [h, ih hl']

theorem mem_entries_iff {m : OrderedMap κ α} {k : κ} {a : α} :
    (k, a) ∈ m.entries ↔ m.get? k = some a :=
  (lookup_eq_some_iff m.nodup).symm

theorem mem_keys_iff {m : OrderedMap κ α} {k : κ} : k ∈ m.keys ↔ ∃ a, m.get? k = some a := by
  simp only [keys, List.mem_map, ← mem_entries_iff]
  constructor
  · rintro ⟨⟨k, a⟩, h, rfl⟩; exact ⟨a, h⟩
  · rintro ⟨a, h⟩; exact ⟨(k, a), h, rfl⟩

theorem mem_values_iff {m : OrderedMap κ α} {a : α} : a ∈ m.values ↔ ∃ k, m.get? k = some a := by
  simp only [values, List.mem_map, ← mem_entries_iff]
  constructor
  · rintro ⟨⟨k, a⟩, h, rfl⟩; exact ⟨k, h⟩
  · rintro ⟨k, h⟩; exact ⟨(k, a), h, rfl⟩

theorem get?_eq_none_iff {m : OrderedMap κ α} {k : κ} : m.get? k = none ↔ k ∉ m.keys := by
  rw [mem_keys_iff, ← Option.isSome_iff_exists]
  simp

theorem get?_singleton_eq_some {k j : κ} {a b : α} (h : (singleton k a).get? j = some b) :
    j = k ∧ b = a := by
  rw [get?_singleton] at h
  split at h
  · next hj => exact ⟨hj, (Option.some.inj h).symm⟩
  · cases h

omit [DecidableEq κ] in
@[simp] theorem mem_keys_singleton {k j : κ} {a : α} : j ∈ (singleton k a).keys ↔ j = k :=
  List.mem_singleton

theorem insertAll_cons (m : OrderedMap κ α) (e : κ × α) (l : List (κ × α)) :
    m.insertAll (e :: l) = (m.insert e.1 e.2).insertAll l := rfl

theorem get?_insertAll {l : List (κ × α)} (hl : (l.map Prod.fst).Nodup) (m : OrderedMap κ α)
    (k : κ) : (m.insertAll l).get? k = (l.lookup k).or (m.get? k) := by
  induction l generalizing m with
  | nil => rfl
  | cons e l ih =>
    obtain ⟨i, b⟩ := e
    obtain ⟨hi, hl'⟩ := List.nodup_cons.1 hl
    rw [insertAll_cons, ih hl', get?_insert, lookup_cons]
    by_cases h : k = i
    · subst h
      have hk : l.lookup k = none := by
        cases hb : l.lookup k with
        | none => rfl
        | some a =>
          exact absurd (List.mem_map.2 ⟨(k, a), (lookup_eq_some_iff hl').1 hb, rfl⟩) hi
      simp [hk]
    · simp [h]

theorem insertEntry_of_not_mem {k : κ} {a : α} {l : List (κ × α)} (h : k ∉ l.map Prod.fst) :
    insertEntry k a l = l ++ [(k, a)] := by
  induction l with
  | nil => rfl
  | cons e l ih =>
    have he : ¬e.1 = k := fun he => h (by simp [he])
    have hl : k ∉ l.map Prod.fst := fun hl => h (List.mem_cons_of_mem _ hl)
    rw [insertEntry, if_neg he, ih hl]
    rfl

/-- Inserting entries with new keys puts them at the end. -/
theorem entries_insertAll {l : List (κ × α)} (m : OrderedMap κ α)
    (hl : ((m.entries ++ l).map Prod.fst).Nodup) :
    (m.insertAll l).entries = m.entries ++ l := by
  induction l generalizing m with
  | nil => simp [insertAll]
  | cons e l ih =>
    have he : e.1 ∉ m.entries.map Prod.fst := by
      rw [List.map_append, List.nodup_append] at hl
      exact fun h => hl.2.2 _ h _ (by simp) rfl
    have hm : (m.insert e.1 e.2).entries = m.entries ++ [e] := insertEntry_of_not_mem he
    have hr := ih (m.insert e.1 e.2) (by rw [hm]; simpa using hl)
    rw [insertAll_cons, hr, hm, List.append_assoc, List.singleton_append]

theorem get?_erase (m : OrderedMap κ α) (j k : κ) :
    (m.erase j).get? k = if k = j then none else m.get? k := by
  rw [erase, get?_filterKeys]
  by_cases h : k = j <;> simp [h]

theorem get?_insertLast (m : OrderedMap κ α) (j k : κ) (a : α) :
    (m.insertLast j a).get? k = if k = j then some a else m.get? k := by
  rw [insertLast, get?_insert, get?_erase]
  by_cases h : k = j <;> simp [h]

theorem map_insertEntry {β : Type} (f : α → β) (k : κ) (a : α) (l : List (κ × α)) :
    (insertEntry k a l).map (fun e => (e.1, f e.2)) =
      insertEntry k (f a) (l.map fun e => (e.1, f e.2)) := by
  induction l with
  | nil => rfl
  | cons e l ih =>
    by_cases h : e.1 = k
    · simp [insertEntry, h]
    · simp [insertEntry, h, ih]

theorem map_insertLast {β : Type} (f : α → β) (m : OrderedMap κ α) (k : κ) (a : α) :
    (m.insertLast k a).map f = (m.map f).insertLast k (f a) := by
  refine ext ((map_insertEntry f k a _).trans (congrArg (insertEntry k (f a)) ?_))
  simp [erase, filterKeys, map, List.filter_map, Function.comp_def]

theorem get?_insertAll_map (l : List κ) (f : κ → α) (m : OrderedMap κ α) (k : κ) :
    (m.insertAll (l.map fun j => (j, f j))).get? k = if k ∈ l then some (f k) else m.get? k := by
  induction l generalizing m with
  | nil => simp [insertAll]
  | cons j l ih =>
    rw [List.map_cons, insertAll_cons, ih, get?_insert]
    by_cases hl : k ∈ l
    · simp [hl]
    · by_cases hj : k = j <;> simp [hl, hj]

end OrderedMap

/-! ## The variables of a type -/

namespace Ty

variable {v w : TyVar} {a r f t : Ty} {l : String}

@[simp] theorem mem_freeVars_var : v ∈ (var w).freeVars ↔ v = w := OrdSet.mem_singleton

@[simp] theorem not_mem_freeVars_int : v ∉ int.freeVars := OrdSet.not_mem_empty v

@[simp] theorem not_mem_freeVars_bool : v ∉ bool.freeVars := OrdSet.not_mem_empty v

@[simp] theorem not_mem_freeVars_rowEmpty : v ∉ rowEmpty.freeVars := OrdSet.not_mem_empty v

@[simp] theorem mem_freeVars_fn : v ∈ (fn a r).freeVars ↔ v ∈ a.freeVars ∨ v ∈ r.freeVars :=
  OrdSet.mem_union

@[simp] theorem mem_freeVars_record : v ∈ (record r).freeVars ↔ v ∈ r.freeVars := Iff.rfl

@[simp] theorem mem_freeVars_rowExtend :
    v ∈ (rowExtend l f t).freeVars ↔ v ∈ f.freeVars ∨ v ∈ t.freeVars :=
  OrdSet.mem_union.trans or_comm

end Ty

/-! ## Applying a substitution -/

namespace Subst

/-- What a substitution puts in the place of a variable. -/
def app (s : Subst) (v : TyVar) : Ty := (s.get? v).getD (.var v)

theorem app_of_get? {s : Subst} {v : TyVar} {t : Ty} (h : s.get? v = some t) : s.app v = t := by
  simp [app, h]

theorem app_of_not_mem {s : Subst} {v : TyVar} (h : v ∉ s.keys) : s.app v = .var v := by
  simp [app, OrderedMap.get?_eq_none_iff.2 h]

@[simp] theorem app_empty (v : TyVar) : app .empty v = .var v := rfl

theorem app_singleton (u v : TyVar) (t : Ty) :
    app (.singleton u t) v = if v = u then t else .var v := by
  rw [app, OrderedMap.get?_singleton]
  split <;> rfl

theorem app_filterKeys (p : TyVar → Bool) (s : Subst) (v : TyVar) :
    app (s.filterKeys p) v = if p v then s.app v else .var v := by
  rw [app, OrderedMap.get?_filterKeys]
  split <;> rfl

/-- The substitution that gives each of finitely many variables the type a function has for it. -/
def tabulate (vs : List TyVar) (f : TyVar → Ty) : Subst :=
  .ofList (vs.map fun v => (v, f v))

theorem get?_tabulate (vs : List TyVar) (f : TyVar → Ty) (v : TyVar) :
    (tabulate vs f).get? v = if v ∈ vs then some (f v) else none :=
  OrderedMap.get?_insertAll_map vs f .empty v

theorem app_tabulate (vs : List TyVar) (f : TyVar → Ty) (v : TyVar) :
    (tabulate vs f).app v = if v ∈ vs then f v else .var v := by
  rw [app, get?_tabulate]
  split <;> rfl

theorem get?_compose (newer older : Subst) (v : TyVar) :
    (newer.compose older).get? v = (newer.get? v).or ((older.get? v).map (Ty.subst newer)) := by
  rw [compose, OrderedMap.get?_insertAll newer.nodup, OrderedMap.get?_map]
  rfl

theorem mem_keys_compose {newer older : Subst} {v : TyVar} :
    v ∈ (newer.compose older).keys ↔ v ∈ newer.keys ∨ v ∈ older.keys := by
  simp only [OrderedMap.mem_keys_iff, get?_compose]
  cases newer.get? v <;> cases older.get? v <;> simp

/-- An entry of a composition is one of the newer part, or one of the older part to which the
newer part was applied. -/
theorem get?_compose_eq_some {newer older : Subst} {v : TyVar} {t : Ty}
    (h : (newer.compose older).get? v = some t) :
    newer.get? v = some t ∨ ∃ t₀, older.get? v = some t₀ ∧ t = t₀.subst newer := by
  rw [get?_compose] at h
  cases hn : newer.get? v with
  | some a => exact .inl (by simpa [hn] using h)
  | none =>
    rw [hn, Option.none_or] at h
    obtain ⟨t₀, ht₀, rfl⟩ := Option.map_eq_some_iff.1 h
    exact .inr ⟨t₀, ht₀, rfl⟩

theorem app_compose (newer older : Subst) (v : TyVar) :
    (newer.compose older).app v =
      if v ∈ newer.keys then newer.app v else (older.app v).subst newer := by
  rw [app, get?_compose]
  split
  · next h =>
    obtain ⟨t, ht⟩ := OrderedMap.mem_keys_iff.1 h
    simp [app, ht]
  · next h =>
    have hn := OrderedMap.get?_eq_none_iff.2 h
    cases ho : older.get? v <;> simp [app, hn, ho, Ty.subst]

end Subst

namespace Ty

theorem subst_var (s : Subst) (v : TyVar) : (var v).subst s = s.app v := rfl

theorem mem_freeVars_subst {s : Subst} {t : Ty} {v : TyVar} :
    v ∈ (t.subst s).freeVars ↔ ∃ u ∈ t.freeVars, v ∈ (s.app u).freeVars := by
  induction t with
  | var w => simp [subst_var]
  | int => simp [subst]
  | bool => simp [subst]
  | rowEmpty => simp [subst]
  | record r ih => simpa [subst] using ih
  | fn a r iha ihr => simp [subst, iha, ihr, or_and_right, exists_or]
  | rowExtend l f t ihf iht => simp [subst, ihf, iht, or_and_right, exists_or]

theorem subst_congr {s s' : Subst} {t : Ty} (h : ∀ v ∈ t.freeVars, s.app v = s'.app v) :
    t.subst s = t.subst s' := by
  induction t with
  | var w => exact h w (by simp)
  | int => rfl
  | bool => rfl
  | rowEmpty => rfl
  | record r ih => exact congrArg record (ih h)
  | fn a r iha ihr =>
    simp only [mem_freeVars_fn] at h
    simp only [subst]
    rw [iha fun v hv => h v (.inl hv), ihr fun v hv => h v (.inr hv)]
  | rowExtend l f t ihf iht =>
    simp only [mem_freeVars_rowExtend] at h
    simp only [subst]
    rw [ihf fun v hv => h v (.inl hv), iht fun v hv => h v (.inr hv)]

@[simp] theorem subst_empty (t : Ty) : t.subst .empty = t := by
  induction t <;> simp_all [subst]

/-- A substitution leaves alone what has none of its variables. -/
theorem subst_eq_self {s : Subst} {t : Ty} (h : ∀ v ∈ t.freeVars, v ∉ s.keys) : t.subst s = t := by
  rw [← subst_empty t]
  refine (subst_congr fun v hv => ?_).trans (subst_empty _)
  rw [subst_empty] at hv
  rw [Subst.app_of_not_mem (h v hv), Subst.app_empty]

theorem subst_singleton_eq_self {u : TyVar} {τ t : Ty} (h : u ∉ t.freeVars) :
    t.subst (.singleton u τ) = t :=
  subst_eq_self fun _ hv hk => h (OrderedMap.mem_keys_singleton.1 hk ▸ hv)

/-- A composition does in one step what its parts do in two, unless both bind a variable. -/
theorem subst_compose {newer older : Subst} (h : ∀ v ∈ newer.keys, v ∉ older.keys) (t : Ty) :
    t.subst (newer.compose older) = (t.subst older).subst newer := by
  induction t with
  | var v =>
    simp only [subst_var, Subst.app_compose]
    split
    · next hv => rw [Subst.app_of_not_mem (h v hv), subst_var]
    · rfl
  | int => rfl
  | bool => rfl
  | rowEmpty => rfl
  | record r ih => exact congrArg record ih
  | fn a r iha ihr => simp only [subst, iha, ihr]
  | rowExtend l f t ihf iht => simp only [subst, ihf, iht]

end Ty

/-! ## Composition with nothing, and solved substitutions -/

namespace Subst

@[simp] theorem empty_compose (s : Subst) : compose .empty s = s := by
  show s.map (Ty.subst .empty) = s
  exact OrderedMap.ext (by simp [OrderedMap.map])

@[simp] theorem compose_empty (s : Subst) : s.compose .empty = s :=
  OrderedMap.ext (OrderedMap.entries_insertAll _ s.nodup)

/-- A variable occurs in a substitution, as one it binds or in one of its types. -/
def Mentions (s : Subst) (v : TyVar) : Prop :=
  ∃ u t, s.get? u = some t ∧ (v = u ∨ v ∈ t.freeVars)

theorem mentions_of_mem_keys {s : Subst} {v : TyVar} (h : v ∈ s.keys) : s.Mentions v := by
  obtain ⟨t, ht⟩ := OrderedMap.mem_keys_iff.1 h
  exact ⟨v, t, ht, .inl rfl⟩

/-- A variable of the substituted type stood there already or comes out of the substitution. -/
theorem mem_freeVars_subst_cases {s : Subst} {t : Ty} {v : TyVar} (h : v ∈ (t.subst s).freeVars) :
    (v ∈ t.freeVars ∧ v ∉ s.keys) ∨ ∃ u τ, s.get? u = some τ ∧ v ∈ τ.freeVars := by
  obtain ⟨u, hu, hv⟩ := Ty.mem_freeVars_subst.1 h
  by_cases hk : u ∈ s.keys
  · obtain ⟨τ, hτ⟩ := OrderedMap.mem_keys_iff.1 hk
    exact .inr ⟨u, τ, hτ, app_of_get? hτ ▸ hv⟩
  · rw [app_of_not_mem hk, Ty.mem_freeVars_var] at hv
    subst hv
    exact .inl ⟨hu, hk⟩

/-- A variable that a composition mentions is mentioned by one of its parts. -/
theorem Mentions.of_compose {newer older : Subst} {v : TyVar}
    (h : (newer.compose older).Mentions v) : newer.Mentions v ∨ older.Mentions v := by
  obtain ⟨u, t, ht, hv⟩ := h
  rcases get?_compose_eq_some ht with hn | ⟨t₀, ho, rfl⟩
  · exact .inl ⟨u, t, hn, hv⟩
  · rcases hv with rfl | hv
    · exact .inr ⟨v, t₀, ho, .inl rfl⟩
    · rcases mem_freeVars_subst_cases hv with ⟨hv, -⟩ | ⟨w, τ, hτ, hv⟩
      · exact .inr ⟨u, t₀, ho, .inr hv⟩
      · exact .inl ⟨w, τ, hτ, .inr hv⟩

/-- No variable of the substitution occurs in its types, so it has nothing to do twice. -/
def Solved (s : Subst) : Prop :=
  ∀ u t, s.get? u = some t → ∀ v ∈ t.freeVars, v ∉ s.keys

theorem Solved.empty : Solved .empty := fun u t h => by cases h

theorem Solved.not_mem_keys {s : Subst} (h : s.Solved) {t : Ty} {v : TyVar}
    (hv : v ∈ (t.subst s).freeVars) : v ∉ s.keys := by
  rcases mem_freeVars_subst_cases hv with ⟨-, hv⟩ | ⟨u, τ, hτ, hv⟩
  · exact hv
  · exact h u τ hτ v hv

/-- Applying a solved substitution a second time changes nothing. -/
theorem Solved.subst_subst {s : Subst} (h : s.Solved) (t : Ty) :
    (t.subst s).subst s = t.subst s :=
  Ty.subst_eq_self fun _ hv => h.not_mem_keys hv

/-- Solved substitutions compose to a solved one when the newer one mentions no variable that the
older one took away. -/
theorem Solved.compose {newer older : Subst} (hn : newer.Solved) (ho : older.Solved)
    (h : ∀ v, newer.Mentions v → v ∉ older.keys) : (newer.compose older).Solved := by
  intro u t ht v hv hk
  rcases get?_compose_eq_some ht with ht | ⟨t₀, ht₀, rfl⟩
  · rcases mem_keys_compose.1 hk with hk | hk
    · exact hn u t ht v hv hk
    · exact h v ⟨u, t, ht, .inr hv⟩ hk
  · rcases mem_keys_compose.1 hk with hk | hk
    · exact hn.not_mem_keys hv hk
    · rcases mem_freeVars_subst_cases hv with ⟨hv, -⟩ | ⟨w, τ, hτ, hv⟩
      · exact ho u t₀ ht₀ v hv hk
      · exact h v ⟨w, τ, hτ, .inr hv⟩ hk

end Subst

/-! ## Properties of all variables -/

/-- All variables of the type satisfy `P`. -/
def Ty.Over (P : TyVar → Prop) (t : Ty) : Prop := ∀ v ∈ t.freeVars, P v

/-- All variables that the substitution mentions satisfy `P`. -/
def Subst.Over (P : TyVar → Prop) (s : Subst) : Prop := ∀ v, s.Mentions v → P v

section Over

variable {P : TyVar → Prop}

theorem Ty.Over.subst {t : Ty} {s : Subst} (ht : t.Over P) (hs : s.Over P) :
    (t.subst s).Over P := by
  intro v hv
  rcases Subst.mem_freeVars_subst_cases hv with ⟨hv, -⟩ | ⟨u, τ, hτ, hv⟩
  · exact ht v hv
  · exact hs v ⟨u, τ, hτ, .inr hv⟩

theorem Ty.over_var {v : TyVar} : (Ty.var v).Over P ↔ P v := by
  simp [Over]

theorem Ty.over_fn {a r : Ty} : (Ty.fn a r).Over P ↔ a.Over P ∧ r.Over P := by
  simp [Over, or_imp, forall_and]

theorem Ty.over_rowExtend {l : String} {f t : Ty} :
    (Ty.rowExtend l f t).Over P ↔ f.Over P ∧ t.Over P := by
  simp [Over, or_imp, forall_and]

namespace Subst

theorem Over.empty : Over P .empty := by
  rintro v ⟨u, t, ht, -⟩
  cases ht

theorem Over.singleton {u : TyVar} {t : Ty} (hu : P u) (ht : t.Over P) :
    Over P (.singleton u t) := by
  rintro v ⟨w, τ, hw, hv⟩
  obtain ⟨rfl, rfl⟩ := OrderedMap.get?_singleton_eq_some hw
  exact hv.elim (fun h => h ▸ hu) (ht v)

theorem Over.insert {s : Subst} {u : TyVar} {t : Ty} (hs : s.Over P) (hu : P u) (ht : t.Over P) :
    Over P (OrderedMap.insert s u t) := by
  rintro v ⟨w, τ, hw, hv⟩
  rw [OrderedMap.get?_insert] at hw
  split at hw
  · next he =>
    subst he; cases hw
    exact hv.elim (fun h => h ▸ hu) (ht v)
  · exact hs v ⟨w, τ, hw, hv⟩

theorem Over.compose {newer older : Subst} (hn : newer.Over P) (ho : older.Over P) :
    (newer.compose older).Over P :=
  fun v hv => hv.of_compose.elim (hn v) (ho v)

end Subst

end Over

theorem Ty.Over.not_mem_compose {t : Ty} {newer older : Subst} (hn : t.Over (· ∉ newer.keys))
    (ho : t.Over (· ∉ older.keys)) : t.Over (· ∉ (newer.compose older).keys) :=
  fun v hv hk => (Subst.mem_keys_compose.1 hk).elim (hn v hv) (ho v hv)

theorem Subst.Solved.over_subst {s : Subst} (h : s.Solved) (t : Ty) :
    (t.subst s).Over (· ∉ s.keys) := fun _ hv => h.not_mem_keys hv

end RowTyping
