import Mathlib.Data.List.Basic
import Mathlib.Data.List.Induction
import Mathlib.Data.Option.Basic

/-!
# Loops that may fail and make progress

A loop `xs.foldlM step s` in `Option`. Every turn keeps an invariant `I` and a set of
positions that are `Done`; a turn `x` also finishes the positions it covers. Then the whole
loop succeeds, keeps the invariant, and finishes what its turns cover together
(`foldlM_progress`). Only membership in `xs` matters, so the turns may come in any order.
-/

namespace Lamellar.Folds

variable {σ α β γ : Type}

theorem foldlM_progress (step : σ → α → Option σ) (I : σ → Prop) (Done : σ → ℕ → Prop)
    (ok : α → Prop) (cover : α → ℕ → Prop)
    (hstep : ∀ s x, I s → ok x →
      ∃ s', step s x = some s' ∧ I s' ∧ ∀ k, Done s k ∨ cover x k → Done s' k)
    (xs : List α) (s : σ) (hI : I s) (hok : ∀ x ∈ xs, ok x) :
    ∃ s', xs.foldlM step s = some s' ∧ I s' ∧
      ∀ k, (Done s k ∨ ∃ x ∈ xs, cover x k) → Done s' k := by
  induction xs generalizing s with
  | nil => exact ⟨s, rfl, hI, fun k hk => by simpa using hk⟩
  | cons x xs ih =>
    obtain ⟨s₁, hs₁, hI₁, hdone₁⟩ := hstep s x hI (hok x List.mem_cons_self)
    obtain ⟨s₂, hs₂, hI₂, hdone₂⟩ := ih s₁ hI₁ (fun y hy => hok y (List.mem_cons_of_mem x hy))
    refine ⟨s₂, by simp [List.foldlM_cons, hs₁, hs₂], hI₂, ?_⟩
    intro k hk
    apply hdone₂
    rcases hk with hk | ⟨y, hy, hk⟩
    · exact Or.inl (hdone₁ k (Or.inl hk))
    · rcases List.mem_cons.mp hy with rfl | hy
      · exact Or.inl (hdone₁ k (Or.inr hk))
      · exact Or.inr ⟨y, hy, hk⟩

theorem mapM_map_eq_some {f : β → Option γ} {key : α → β} {g : α → γ} {xs : List α}
    (h : ∀ x ∈ xs, f (key x) = some (g x)) : (xs.map key).mapM f = some (xs.map g) := by
  induction xs with
  | nil => rfl
  | cons x xs ih =>
    rw [List.map_cons, List.mapM_cons, h x List.mem_cons_self,
      ih (fun y hy => h y (List.mem_cons_of_mem x hy))]
    rfl

theorem mapM_eq_map {f : α → Option γ} {g : α → γ} {xs : List α}
    (h : ∀ x ∈ xs, f x = some (g x)) : xs.mapM f = some (xs.map g) := by
  have hmap := @mapM_map_eq_some α α γ f id g xs h
  rwa [List.map_id] at hmap

/-- A loop over the positions of a list that yields its elements -/
theorem mapM_range {f : ℕ → Option γ} {l : List γ} (h : ∀ i a, l[i]? = some a → f i = some a) :
    (List.range l.length).mapM f = some l := by
  induction l using List.reverseRecOn with
  | nil => rfl
  | append_singleton l a ih =>
    have hinit := ih fun i b hb => h i b (by
      rw [List.getElem?_append_left (List.getElem?_eq_some_iff.mp hb).1]
      exact hb)
    have hlast := h l.length a (by simp)
    rw [List.length_append, List.length_singleton, List.range_succ, List.mapM_append, hinit]
    simp [hlast]

theorem mapM_mem {f : α → Option γ} {xs : List α} {ys : List γ} (h : xs.mapM f = some ys) {x : α}
    (hx : x ∈ xs) : ∃ y ∈ ys, f x = some y := by
  induction xs generalizing ys with
  | nil => cases hx
  | cons a xs ih =>
    rw [List.mapM_cons] at h
    obtain ⟨y, hy, h⟩ := Option.bind_eq_some_iff.mp h
    obtain ⟨ys', hrest, h⟩ := Option.bind_eq_some_iff.mp h
    cases h
    rcases List.mem_cons.mp hx with rfl | hx
    · exact ⟨y, List.mem_cons_self, hy⟩
    · obtain ⟨y', hy', hf⟩ := ih hrest hx
      exact ⟨y', List.mem_cons_of_mem _ hy', hf⟩

theorem mem_mapM {f : α → Option γ} {xs : List α} {ys : List γ} (h : xs.mapM f = some ys) {y : γ}
    (hy : y ∈ ys) : ∃ x ∈ xs, f x = some y := by
  induction xs generalizing ys with
  | nil =>
    cases h
    cases hy
  | cons a xs ih =>
    rw [List.mapM_cons] at h
    obtain ⟨b, hb, h⟩ := Option.bind_eq_some_iff.mp h
    obtain ⟨ys', hrest, h⟩ := Option.bind_eq_some_iff.mp h
    cases h
    rcases List.mem_cons.mp hy with rfl | hy
    · exact ⟨a, List.mem_cons_self, hb⟩
    · obtain ⟨x, hx, hf⟩ := ih hrest hy
      exact ⟨x, List.mem_cons_of_mem a hx, hf⟩

/-- What is read off the items of a loop, read off its turns -/
theorem map_of_mapM {f : α → Option γ} {p : γ → β} {g : α → β} {xs : List α} {ys : List γ}
    (h : xs.mapM f = some ys) (hg : ∀ x ∈ xs, ∀ y, f x = some y → p y = g x) :
    ys.map p = xs.map g := by
  induction xs generalizing ys with
  | nil =>
    cases h
    rfl
  | cons x xs ih =>
    rw [List.mapM_cons] at h
    obtain ⟨y, hy, h⟩ := Option.bind_eq_some_iff.mp h
    obtain ⟨ys', hrest, h⟩ := Option.bind_eq_some_iff.mp h
    cases h
    rw [List.map_cons, List.map_cons, hg x List.mem_cons_self y hy,
      ih hrest fun x' hx' => hg x' (List.mem_cons_of_mem x hx')]

theorem isSome_mapM {f : α → Option γ} {xs : List α} (h : ∀ x ∈ xs, (f x).isSome) :
    (xs.mapM f).isSome := by
  induction xs with
  | nil => rfl
  | cons x xs ih =>
    obtain ⟨y, hy⟩ := Option.isSome_iff_exists.mp (h x List.mem_cons_self)
    obtain ⟨ys, hys⟩ := Option.isSome_iff_exists.mp (ih fun a ha => h a (List.mem_cons_of_mem x ha))
    rw [List.mapM_cons, hy, hys]
    rfl

/-- Two loops are one. -/
theorem mapM_bind {f : α → Option β} {g : β → Option γ} {xs : List α} {ys : List γ}
    (h : xs.mapM (fun x => (f x).bind g) = some ys) : (xs.mapM f).bind (List.mapM g) = some ys := by
  induction xs generalizing ys with
  | nil => exact h
  | cons x xs ih =>
    rw [List.mapM_cons] at h
    obtain ⟨y, hy, h⟩ := Option.bind_eq_some_iff.mp h
    obtain ⟨ys', hrest, h⟩ := Option.bind_eq_some_iff.mp h
    cases h
    obtain ⟨b, hb, hgb⟩ := Option.bind_eq_some_iff.mp hy
    obtain ⟨bs, hbs, hgbs⟩ := Option.bind_eq_some_iff.mp (ih hrest)
    rw [List.mapM_cons, hb, hbs]
    simp [hgb, hgbs]

/-- One fuel that is enough for every turn -/
theorem exists_common {P : ℕ → α → Prop} (hmono : ∀ fuel k x, P fuel x → P (fuel + k) x)
    {xs : List α} (h : ∀ x ∈ xs, ∃ fuel, P fuel x) : ∃ fuel, ∀ x ∈ xs, P fuel x := by
  induction xs with
  | nil => exact ⟨0, fun x hx => (List.not_mem_nil hx).elim⟩
  | cons x xs ih =>
    obtain ⟨fuel, hfuel⟩ := h x List.mem_cons_self
    obtain ⟨fuel', hrest⟩ := ih fun y hy => h y (List.mem_cons_of_mem x hy)
    refine ⟨fuel + fuel', fun y hy => ?_⟩
    rcases List.mem_cons.mp hy with rfl | hy
    · exact hmono _ _ _ hfuel
    · rw [Nat.add_comm]
      exact hmono _ _ _ (hrest y hy)

/-- What is collected from the one element that has the number `k` -/
theorem flatMap_of_nodup {ids : α → List ℕ} {f : α → List β} {xs : List α}
    (h : (xs.flatMap ids).Nodup) {x : α} (hx : x ∈ xs) {k : ℕ} (hk : k ∈ ids x)
    (hf : ∀ y ∈ xs, k ∉ ids y → f y = []) : xs.flatMap f = f x := by
  induction xs with
  | nil => cases hx
  | cons y xs ih =>
    rw [List.flatMap_cons, List.nodup_append] at h
    obtain ⟨-, hrest, hdisj⟩ := h
    rw [List.flatMap_cons]
    rcases List.mem_cons.mp hx with rfl | hx
    · have hnil : xs.flatMap f = [] := by
        refine List.flatMap_eq_nil_iff.mpr fun y hy =>
          hf y (List.mem_cons_of_mem _ hy) fun hmem => ?_
        exact hdisj k hk k (List.mem_flatMap.mpr ⟨y, hy, hmem⟩) rfl
      rw [hnil, List.append_nil]
    · have hnil : f y = [] := hf y List.mem_cons_self fun hmem =>
        hdisj k hmem k (List.mem_flatMap.mpr ⟨x, hx, hk⟩) rfl
      rw [hnil, List.nil_append]
      exact ih hrest hx fun z hz => hf z (List.mem_cons_of_mem _ hz)

/-- A fold over wrapped states, where the steps are those of the states inside. -/
theorem foldlM_wrap {σ τ α β : Type} (step : σ → β → Option σ) (step' : τ → α → Option τ)
    (wrap : σ → τ) (f : α → β) (hstep : ∀ s a, step' (wrap s) a = (step s (f a)).map wrap)
    (l : List α) (s : σ) : l.foldlM step' (wrap s) = ((l.map f).foldlM step s).map wrap := by
  induction l generalizing s with
  | nil => rfl
  | cons a l ih =>
    rw [List.foldlM_cons, List.map_cons, List.foldlM_cons, hstep]
    cases step s (f a) with
    | none => rfl
    | some s => exact ih s

/-! ## Two loops side by side -/

theorem rel_some_left {R : α → β → Prop} {a : α} {o : Option β} (h : Option.Rel R (some a) o) :
    ∃ b, o = some b ∧ R a b := by
  cases h with
  | some h => exact ⟨_, rfl, h⟩

theorem rel_some_right {R : α → β → Prop} {o : Option α} {b : β} (h : Option.Rel R o (some b)) :
    ∃ a, o = some a ∧ R a b := by
  cases h with
  | some h => exact ⟨_, rfl, h⟩

/-- Two loops over the same list whose steps go through together, in related states. -/
theorem foldlM_rel {σ τ : Type} {step : σ → α → Option σ} {step' : τ → α → Option τ}
    {R : σ → τ → Prop} (hstep : ∀ s t a, R s t → Option.Rel R (step s a) (step' t a))
    (l : List α) {s : σ} {t : τ} (h : R s t) :
    Option.Rel R (l.foldlM step s) (l.foldlM step' t) := by
  induction l generalizing s t with
  | nil => exact .some h
  | cons a l ih =>
    have hrel := hstep s t a h
    rw [List.foldlM_cons, List.foldlM_cons]
    generalize step s a = r at hrel
    generalize step' t a = r' at hrel
    cases hrel with
    | none => exact .none
    | some h' => exact ih h'

end Lamellar.Folds
