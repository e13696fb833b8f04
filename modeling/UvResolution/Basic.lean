-- What the resolution code takes from Rust's library and from petgraph: a call that
-- returns a value, an error or a panic; a hash map as its entries, with distinct keys;
-- and a directed graph whose nodes are numbered and whose edges keep their order.
import Mathlib.Algebra.Order.Ring.Nat
import Mathlib.Data.Char
import Mathlib.Data.List.Destutter
import Mathlib.Data.List.Forall2
import Mathlib.Data.List.Lex
import Mathlib.Data.List.Nodup
import Mathlib.Data.List.Perm.Basic
import Mathlib.Data.List.Sort
import Mathlib.Data.Prod.Lex
import Mathlib.Data.String.Basic
import Mathlib.Order.Basic

namespace uv_resolver

/-! ## Results and panics -/

/-- What a call ends in: a value, an error that it returns, or a panic. -/
inductive Outcome (ε α : Type) where
  | ok (a : α)
  | err (e : ε)
  | panic (msg : String)
  deriving DecidableEq, Repr

namespace Outcome

variable {ε ε' α β : Type}

def bind : Outcome ε α → (α → Outcome ε β) → Outcome ε β
  | ok a, f => f a
  | err e, _ => err e
  | panic m, _ => panic m

instance : Monad (Outcome ε) where
  pure := ok
  bind := bind

/-- `?` on a `Result`, with its error converted by `From`. -/
def lift (f : ε → ε') : Except ε α → Outcome ε' α
  | .ok a => ok a
  | .error e => err (f e)

/-- The call does not panic. -/
def NoPanic (x : Outcome ε α) : Prop := ∀ m, x ≠ panic m

@[simp] theorem pure_eq (a : α) : (pure a : Outcome ε α) = ok a := rfl

@[simp] theorem ok_bind (a : α) (f : α → Outcome ε β) : (ok a >>= f) = f a := rfl

@[simp] theorem err_bind (e : ε) (f : α → Outcome ε β) : (err e >>= f) = err e := rfl

@[simp] theorem panic_bind (m : String) (f : α → Outcome ε β) : (panic m >>= f) = panic m := rfl

@[simp] theorem lift_ok (f : ε → ε') (a : α) : lift f (.ok a) = ok a := rfl

@[simp] theorem lift_error (f : ε → ε') (e : ε) : lift (α := α) f (.error e) = err (f e) := rfl

theorem bind_eq_ok {x : Outcome ε α} {f : α → Outcome ε β} {b : β} :
    (x >>= f) = ok b ↔ ∃ a, x = ok a ∧ f a = ok b := by
  cases x <;> simp

theorem bind_eq_err {x : Outcome ε α} {f : α → Outcome ε β} {e : ε} :
    (x >>= f) = err e ↔ x = err e ∨ ∃ a, x = ok a ∧ f a = err e := by
  cases x <;> simp

@[simp] theorem lift_eq_ok (f : ε → ε') (x : Except ε α) (a : α) :
    lift f x = ok a ↔ x = .ok a := by
  cases x <;> simp

@[simp] theorem lift_eq_err (f : ε → ε') (x : Except ε α) (e : ε') :
    lift f x = err e ↔ ∃ e₀, x = .error e₀ ∧ f e₀ = e := by
  cases x <;> simp

theorem noPanic_ok (a : α) : NoPanic (ok a : Outcome ε α) := fun _ h => by cases h

theorem noPanic_err (e : ε) : NoPanic (err e : Outcome ε α) := fun _ h => by cases h

theorem noPanic_bind {x : Outcome ε α} {f : α → Outcome ε β} (hx : NoPanic x)
    (hf : ∀ a, x = ok a → NoPanic (f a)) : NoPanic (x >>= f) := by
  cases x with
  | ok a => exact hf a rfl
  | err e => exact noPanic_err e
  | panic m => exact absurd rfl (hx m)

theorem noPanic_lift (f : ε → ε') (x : Except ε α) : NoPanic (lift f x) := by
  cases x
  · exact noPanic_err _
  · exact noPanic_ok _

end Outcome

open Outcome

/-! ## Loops -/

section Loops

variable {ε α β γ : Type}

/-- A loop whose body looks something up and then changes the state by a pure update
succeeds exactly when every lookup does, and ends in the updates done in order. -/
theorem foldlM_ok_iff (act : α → Outcome ε γ) (upd : β → γ → β) (l : List α) (b b' : β) :
    l.foldlM (fun b x => act x >>= fun a => ok (upd b a)) b = ok b' ↔
      ∃ as, List.Forall₂ (fun x a => act x = ok a) l as ∧ b' = as.foldl upd b := by
  induction l generalizing b with
  | nil => simp [eq_comm]
  | cons x l ih =>
    simp only [List.foldlM_cons, bind_eq_ok, Outcome.ok.injEq, List.forall₂_cons_left_iff]
    constructor
    · rintro ⟨_, ⟨a, ha, rfl⟩, hl⟩
      obtain ⟨as, has, rfl⟩ := (ih _).1 hl
      exact ⟨a :: as, ⟨a, as, ha, has, rfl⟩, rfl⟩
    · rintro ⟨_, ⟨a, as, ha, has, rfl⟩, rfl⟩
      exact ⟨_, ⟨a, ha, rfl⟩, (ih _).2 ⟨as, has, rfl⟩⟩

/-- A loop none of whose steps panics does not panic. -/
theorem noPanic_foldlM (f : β → α → Outcome ε β) (l : List α) (b : β)
    (h : ∀ b, ∀ x ∈ l, NoPanic (f b x)) : NoPanic (l.foldlM f b) := by
  induction l generalizing b with
  | nil => exact noPanic_ok b
  | cons x l ih =>
    simp only [List.foldlM_cons]
    exact noPanic_bind (h b x (List.mem_cons_self x l))
      fun b' _ => ih b' fun b y hy => h b y (List.mem_cons_of_mem x hy)

/-- A loop that ends in an error has a step that ends in it. -/
theorem foldlM_err (f : β → α → Outcome ε β) (l : List α) (b : β) (e : ε)
    (h : l.foldlM f b = err e) : ∃ b', ∃ x ∈ l, f b' x = err e := by
  induction l generalizing b with
  | nil => cases h
  | cons x l ih =>
    simp only [List.foldlM_cons, bind_eq_err] at h
    rcases h with h | ⟨b', _, h⟩
    · exact ⟨b, x, List.mem_cons_self x l, h⟩
    · obtain ⟨b'', y, hy, h⟩ := ih b' h
      exact ⟨b'', y, List.mem_cons_of_mem x hy, h⟩

/-- What every step of a loop keeps holds at its end. -/
theorem foldlM_invariant (f : β → α → Outcome ε β) (P : β → Prop) (l : List α) {b b' : β}
    (hf : ∀ b x b', x ∈ l → f b x = ok b' → P b → P b') (hb : P b)
    (h : l.foldlM f b = ok b') : P b' := by
  induction l generalizing b with
  | nil => cases h; exact hb
  | cons x l ih =>
    simp only [List.foldlM_cons, bind_eq_ok] at h
    obtain ⟨b1, h1, h2⟩ := h
    exact ih (fun b y b' hy => hf b y b' (List.mem_cons_of_mem x hy))
      (hf b x b1 (List.mem_cons_self x l) h1 hb) h2

/-- A loop whose step, on states that keep `P`, succeeds exactly when its entry meets `C`
and then does the pure update `u`, succeeds exactly when every entry meets `C`. -/
theorem foldlM_ok_iff_of_step {f : β → α → Outcome ε β} {u : β → α → β} (P : β → Prop)
    (C : α → Prop) (hstep : ∀ b x b', P b → (f b x = ok b' ↔ C x ∧ b' = u b x))
    (hP : ∀ b x, P b → P (u b x)) {l : List α} {b b' : β} (hb : P b) :
    l.foldlM f b = ok b' ↔ (∀ x ∈ l, C x) ∧ b' = l.foldl u b := by
  induction l generalizing b with
  | nil => simp [eq_comm]
  | cons x l ih =>
    simp only [List.foldlM_cons, bind_eq_ok, hstep _ _ _ hb, List.forall_mem_cons,
      List.foldl_cons]
    constructor
    · rintro ⟨_, ⟨hx, rfl⟩, hl⟩
      exact ⟨⟨hx, ((ih (hP b x hb)).1 hl).1⟩, ((ih (hP b x hb)).1 hl).2⟩
    · rintro ⟨⟨hx, hl⟩, rfl⟩
      exact ⟨_, ⟨hx, rfl⟩, (ih (hP b x hb)).2 ⟨hl, rfl⟩⟩

/-- A loop that appends each entry to a list appends the whole list. -/
theorem foldl_append_singleton (l acc : List α) :
    l.foldl (fun ds d => ds ++ [d]) acc = acc ++ l := by
  induction l generalizing acc with
  | nil => simp
  | cons x l ih => simp [ih]

/-- Two lists related entry by entry have the same images under maps that the relation
identifies. -/
theorem filterMap_eq_of_forall₂ {δ : Type} {R : α → β → Prop} {l₁ : List α} {l₂ : List β}
    (h : List.Forall₂ R l₁ l₂) {f : α → Option δ} {g : β → Option δ}
    (hfg : ∀ a b, R a b → f a = g b) : l₁.filterMap f = l₂.filterMap g := by
  induction h with
  | nil => rfl
  | cons hab _ ih => simp only [List.filterMap_cons, hfg _ _ hab, ih]

theorem map_eq_of_forall₂ {δ : Type} {R : α → β → Prop} {l₁ : List α} {l₂ : List β}
    (h : List.Forall₂ R l₁ l₂) {f : α → δ} {g : β → δ}
    (hfg : ∀ a b, R a b → f a = g b) : l₁.map f = l₂.map g := by
  induction h with
  | nil => rfl
  | cons hab _ ih => simp only [List.map_cons, hfg _ _ hab, ih]

theorem filterMap_filter_map {δ : Type} (g : α → Option β) (p : β → Bool) (f : β → δ)
    (l : List α) :
    l.filterMap (fun x => ((g x).filter p).map f) = ((l.filterMap g).filter p).map f := by
  induction l with
  | nil => rfl
  | cons x l ih =>
    cases hg : g x with
    | none => simp [List.filterMap_cons, hg, ih]
    | some y => by_cases hp : p y <;> simp [List.filterMap_cons, hg, hp, ih, Option.filter_some]

theorem exists_of_mem_forall₂ {R : α → β → Prop} {l₁ : List α} {l₂ : List β}
    (h : List.Forall₂ R l₁ l₂) {a : α} (ha : a ∈ l₁) : ∃ b ∈ l₂, R a b := by
  induction h with
  | nil => cases ha
  | cons hab _ ih =>
    rcases List.mem_cons.1 ha with rfl | ha
    · exact ⟨_, List.mem_cons_self _ _, hab⟩
    · obtain ⟨b, hb, h⟩ := ih ha
      exact ⟨b, List.mem_cons_of_mem _ hb, h⟩

theorem exists_of_mem_forall₂_right {R : α → β → Prop} {l₁ : List α} {l₂ : List β}
    (h : List.Forall₂ R l₁ l₂) {b : β} (hb : b ∈ l₂) : ∃ a ∈ l₁, R a b := by
  induction h with
  | nil => cases hb
  | cons hab _ ih =>
    rcases List.mem_cons.1 hb with rfl | hb
    · exact ⟨_, List.mem_cons_self _ _, hab⟩
    · obtain ⟨a, ha, h⟩ := ih hb
      exact ⟨a, List.mem_cons_of_mem _ ha, h⟩

/-- Items that each relate to something relate, as a list, to a list. -/
theorem exists_forall₂_of_forall {R : α → β → Prop} :
    ∀ {l : List α}, (∀ x ∈ l, ∃ y, R x y) → ∃ l', List.Forall₂ R l l'
  | [], _ => ⟨[], .nil⟩
  | x :: _, h =>
    have ⟨y, hy⟩ := h x (.head _)
    have ⟨l', hl'⟩ := exists_forall₂_of_forall fun z hz => h z (.tail _ hz)
    ⟨y :: l', .cons hy hl'⟩

theorem forall₂_mem_right {R : α → β → Prop} {l₁ : List α} {l₂ : List β}
    (h : List.Forall₂ R l₁ l₂) : List.Forall₂ (fun a b => R a b ∧ b ∈ l₂) l₁ l₂ := by
  induction h with
  | nil => exact .nil
  | cons hab _ ih =>
    exact .cons ⟨hab, List.mem_cons_self _ _⟩ (ih.imp fun _ _ h => ⟨h.1, List.mem_cons_of_mem _ h.2⟩)

/-- Two related lists relate their entries at each position. -/
theorem rel_of_forall₂ {R : α → β → Prop} :
    ∀ {l₁ : List α} {l₂ : List β}, List.Forall₂ R l₁ l₂ → ∀ {i : Nat} {a : α} {b : β},
      l₁[i]? = some a → l₂[i]? = some b → R a b
  | _, _, .nil, _, _, _, ha, _ => by simp at ha
  | _ :: _, _ :: _, .cons hr _, 0, _, _, ha, hb => by
    simp only [List.getElem?_cons_zero, Option.some.injEq] at ha hb
    exact ha ▸ hb ▸ hr
  | _ :: _, _ :: _, .cons _ h, _ + 1, _, _, ha, hb => by
    simp only [List.getElem?_cons_succ] at ha hb
    exact rel_of_forall₂ h ha hb

/-- Replacing an entry by one that the relation still allows keeps two lists related. -/
theorem forall₂_set {R : α → β → Prop} :
    ∀ {l₁ : List α} {l₂ : List β}, List.Forall₂ R l₁ l₂ → ∀ {i : Nat} {b : β},
      (∀ a, l₁[i]? = some a → R a b) → List.Forall₂ R l₁ (l₂.set i b)
  | _, _, .nil, _, _, _ => .nil
  | _ :: _, _ :: _, .cons _ h, 0, _, hb => .cons (hb _ (List.getElem?_cons_zero ..)) h
  | _ :: _, _ :: _, .cons hr h, _ + 1, _, hb =>
    .cons hr (forall₂_set h fun a ha => hb a ((List.getElem?_cons_succ ..).trans ha))

/-- Two related lists relate their last entries. -/
theorem rel_getLast? {R : α → β → Prop} :
    ∀ {l₁ : List α} {l₂ : List β}, List.Forall₂ R l₁ l₂ → Option.Rel R l₁.getLast? l₂.getLast?
  | _, _, .nil => .none
  | _ :: as, _ :: bs, .cons hr h => by
    have hl := rel_getLast? h
    rw [List.getLast?_cons, List.getLast?_cons]
    generalize as.getLast? = x at hl
    generalize bs.getLast? = y at hl
    cases hl with
    | none => exact .some hr
    | some hs => exact .some hs

/-- In a list whose keys are distinct, the entries of an entry's key are that entry. -/
theorem filter_fst_eq_singleton {l : List (α × β)} (hl : (l.map Prod.fst).Nodup)
    [DecidableEq α] {y : α × β} (hy : y ∈ l) : l.filter (fun x => x.1 = y.1) = [y] := by
  induction l with
  | nil => cases hy
  | cons z l ih =>
    simp only [List.map_cons, List.nodup_cons, List.mem_map] at hl
    rcases List.mem_cons.1 hy with rfl | hy
    · have : l.filter (fun x => x.1 = y.1) = [] :=
        List.filter_eq_nil_iff.2 fun x hx h => hl.1 ⟨x, hx, by simpa using h⟩
      simp [this]
    · have : ¬ z.1 = y.1 := fun h => hl.1 ⟨y, hy, h.symm⟩
      simp [List.filter_cons, this, ih hl.2 hy]

end Loops

/-! ## Hash maps -/

/-- A `HashMap` by its entries. Iteration runs over the entries in order, and no key
has two entries. -/
structure FxHashMap (K V : Type) where
  entries : List (K × V)
  nodup : (entries.map Prod.fst).Nodup

namespace FxHashMap

variable {K V W ε : Type} [DecidableEq K]

def empty : FxHashMap K V := ⟨[], List.nodup_nil⟩

def get (m : FxHashMap K V) (k : K) : Option V :=
  (m.entries.find? fun e => e.1 = k).map Prod.snd

def insert (m : FxHashMap K V) (k : K) (v : V) : FxHashMap K V where
  entries := (k, v) :: m.entries.filter fun e => e.1 ≠ k
  nodup := by
    refine List.nodup_cons.2 ⟨?_, (m.nodup.sublist ((List.filter_sublist _).map _))⟩
    simp

/-- `map[key]`, which panics on a missing key. -/
def index (m : FxHashMap K V) (k : K) : Outcome ε V :=
  match m.get k with
  | some v => .ok v
  | none => .panic "no entry found for key"

/-- `map.entry(key).or_insert_with(Vec::new).push(x)`. -/
def push (m : FxHashMap K (List W)) (k : K) (x : W) : FxHashMap K (List W) :=
  m.insert k ((m.get k).getD [] ++ [x])

/-- The number of values in all the lists of a map. -/
def total (m : FxHashMap K (List W)) : Nat := (m.entries.map fun e => e.2.length).sum

@[simp] theorem get_empty (k : K) : (empty : FxHashMap K V).get k = none := rfl

theorem find?_filter_ne (l : List (K × V)) (k k' : K) (h : k' ≠ k) :
    (l.filter fun e => e.1 ≠ k).find? (fun e => e.1 = k') = l.find? fun e => e.1 = k' := by
  induction l with
  | nil => rfl
  | cons e l ih =>
    by_cases he : e.1 = k
    · have : ¬ e.1 = k' := fun h' => h (h' ▸ he)
      rw [List.filter_cons_of_neg (by simpa using he), ih,
        List.find?_cons_of_neg _ (by simpa using this)]
    · simp only [List.filter_cons, he, ne_eq, not_false_eq_true, decide_True, ite_true,
        List.find?_cons, ih]

@[simp] theorem get_insert (m : FxHashMap K V) (k k' : K) (v : V) :
    (m.insert k v).get k' = if k' = k then some v else m.get k' := by
  by_cases h : k' = k
  · subst h; simp [get, insert]
  · simp only [get, insert, List.find?_cons, h, decide_False, if_false]
    have : ¬ k = k' := fun e => h e.symm
    simp only [this, decide_False, find?_filter_ne _ _ _ h]

/-- A map built by inserting the items of a list under their keys holds, for each key, the
value of the last item of that key, and otherwise what it held before. -/
theorem get_foldl_insert {α : Type} (key : α → K) (value : α → V) (l : List α)
    (m : FxHashMap K V) (k : K) :
    (l.foldl (fun m a => m.insert (key a) (value a)) m).get k =
      (((l.filter fun a => key a = k).getLast?).map value).or (m.get k) := by
  induction l generalizing m with
  | nil => simp
  | cons a l ih =>
    rw [List.foldl_cons, ih, get_insert]
    by_cases h : key a = k
    · cases hl : (l.filter fun a => key a = k).getLast? <;>
        simp [List.filter_cons_of_pos (p := fun a => decide (key a = k)) (by simpa using h),
          List.getLast?_cons, hl, h]
    · simp [List.filter_cons_of_neg (p := fun a => decide (key a = k)) (by simpa using h),
        Ne.symm h]

theorem get_eq_some_iff (m : FxHashMap K V) (k : K) (v : V) :
    m.get k = some v ↔ (k, v) ∈ m.entries := by
  obtain ⟨l, hl⟩ := m
  simp only [get]
  induction l with
  | nil => simp
  | cons e l ih =>
    obtain ⟨ek, ev⟩ := e
    simp only [List.map_cons, List.nodup_cons, List.mem_map] at hl
    by_cases h : ek = k
    · subst h
      have : ∀ w, (ek, w) ∉ l := fun w hw => hl.1 ⟨_, hw, rfl⟩
      simp [this, eq_comm]
    · have : ¬ k = ek := fun e => h e.symm
      simp [List.find?_cons, h, ih hl.2, this]

theorem mem_of_get (m : FxHashMap K V) {k : K} {v : V} (h : m.get k = some v) :
    (k, v) ∈ m.entries := (get_eq_some_iff m k v).1 h

theorem get_of_mem (m : FxHashMap K V) {k : K} {v : V} (h : (k, v) ∈ m.entries) :
    m.get k = some v := (get_eq_some_iff m k v).2 h

/-- Two entries of one key are one entry. -/
theorem eq_of_mem (m : FxHashMap K V) {k : K} {v v' : V} (h : (k, v) ∈ m.entries)
    (h' : (k, v') ∈ m.entries) : v = v' := by
  simpa [get_of_mem m h] using get_of_mem m h'

@[simp] theorem index_eq_ok (m : FxHashMap K V) (k : K) (v : V) :
    (m.index k : Outcome ε V) = .ok v ↔ m.get k = some v := by
  unfold index; split <;> simp_all

/-- Indexing panics on a missing key and returns no error. -/
theorem index_ne_err (m : FxHashMap K V) (k : K) (e : ε) : m.index k ≠ .err e := by
  unfold index; split <;> simp

theorem noPanic_index (m : FxHashMap K V) (k : K) (h : m.get k ≠ none) :
    NoPanic (m.index k : Outcome ε V) := by
  unfold index; split
  · exact noPanic_ok _
  · contradiction

@[simp] theorem get_push (m : FxHashMap K (List W)) (k k' : K) (x : W) :
    (m.push k x).get k' = if k' = k then some ((m.get k).getD [] ++ [x]) else m.get k' :=
  get_insert _ _ _ _

theorem getD_push (m : FxHashMap K (List W)) (k k' : K) (x : W) :
    ((m.push k x).get k').getD [] = (m.get k').getD [] ++ if k' = k then [x] else [] := by
  by_cases h : k' = k
  · subst h; simp
  · simp [h]

/-- The values of one key, and those of all other keys. -/
theorem total_split (m : FxHashMap K (List W)) (k : K) :
    m.total = ((m.get k).getD []).length +
      ((m.entries.filter fun e => e.1 ≠ k).map fun e => e.2.length).sum := by
  obtain ⟨l, hl⟩ := m
  simp only [total, get]
  induction l with
  | nil => simp
  | cons e l ih =>
    simp only [List.map_cons, List.nodup_cons, List.mem_map] at hl
    rw [List.map_cons, List.sum_cons, ih hl.2]
    by_cases h : e.1 = k
    · subst h
      have : (l.filter fun e' => e'.1 ≠ e.1) = l :=
        List.filter_eq_self.2 fun a ha => by simpa using fun h => hl.1 ⟨a, ha, h⟩
      have hn : l.find? (fun e' => e'.1 = e.1) = none :=
        List.find?_eq_none.2 fun a ha => by simpa using fun h => hl.1 ⟨a, ha, h⟩
      simp [this, hn]
    · simp only [List.find?_cons, h, decide_False, List.filter_cons, ne_eq, not_false_eq_true,
        decide_True, ite_true, List.map_cons, List.sum_cons]
      omega

theorem total_push (m : FxHashMap K (List W)) (k : K) (x : W) :
    (m.push k x).total = m.total + 1 := by
  have hf : ((m.push k x).entries.filter fun e => e.1 ≠ k) =
      m.entries.filter fun e => e.1 ≠ k := by
    simp [push, insert, List.filter_filter]
  rw [total_split _ k, total_split m k, hf, get_push, if_pos rfl]
  simp only [Option.getD_some, List.length_append, List.length_singleton]
  omega

end FxHashMap

/-- An `FxHashSet`, by its elements, each once, in the order they were inserted. The code
reads the order of a set only where it does not matter. -/
structure FxHashSet (K : Type) where
  elems : List K
  nodup : elems.Nodup

namespace FxHashSet

variable {K : Type}

def empty : FxHashSet K := ⟨[], List.nodup_nil⟩

@[simp] theorem elems_empty : (empty : FxHashSet K).elems = [] := rfl

variable [DecidableEq K]

def insert (s : FxHashSet K) (k : K) : FxHashSet K :=
  if h : k ∈ s.elems then s
  else ⟨s.elems ++ [k], List.nodup_append.2 ⟨s.nodup, List.nodup_singleton k, by simpa using h⟩⟩

@[simp] theorem mem_insert (s : FxHashSet K) (k k' : K) :
    k' ∈ (s.insert k).elems ↔ k' = k ∨ k' ∈ s.elems := by
  unfold insert
  split
  · constructor
    · exact .inr
    · rintro (rfl | h) <;> assumption
  · simp [or_comm]

end FxHashSet

/-! ## Graphs -/

abbrev NodeIndex := Nat

/-- An edge of a `petgraph` graph. -/
structure Edge (E : Type) where
  source : NodeIndex
  target : NodeIndex
  weight : E
  deriving DecidableEq, Repr

/-- A directed `petgraph::Graph`: node `i` is the `i`-th node added, and edges are kept in
the order they were added. -/
structure Graph (N E : Type) where
  nodes : List N
  edges : List (Edge E)
  deriving DecidableEq, Repr

namespace Graph

variable {N E ε : Type}

def empty : Graph N E := ⟨[], []⟩

/-- `add_node`: the new node and its index. -/
def add_node (g : Graph N E) (w : N) : Graph N E × NodeIndex :=
  ({ g with nodes := g.nodes ++ [w] }, g.nodes.length)

/-- `find_edge(a, b).is_some()`. -/
def contains_edge (g : Graph N E) (a b : NodeIndex) : Bool :=
  g.edges.any fun e => e.source = a ∧ e.target = b

def add_edge (g : Graph N E) (a b : NodeIndex) (w : E) : Outcome ε (Graph N E) :=
  if a < g.nodes.length ∧ b < g.nodes.length then .ok { g with edges := g.edges ++ [⟨a, b, w⟩] }
  else .panic "Graph::add_edge: node indices out of bounds"

/-- `update_edge`: set the weight of the edge from `a` to `b`, or add one. The edges of a
graph built by `update_edge` alone join distinct pairs, so the edge that petgraph finds
is the only one. -/
def update_edge (g : Graph N E) (a b : NodeIndex) (w : E) : Outcome ε (Graph N E) :=
  if g.contains_edge a b then
    .ok { g with edges := g.edges.map fun e => if e.source = a ∧ e.target = b then ⟨a, b, w⟩ else e }
  else g.add_edge a b w

/-- `neighbors(a)`: the targets of the edges from `a`, the newest first. -/
def neighbors (g : Graph N E) (a : NodeIndex) : List NodeIndex :=
  (g.edges.filter fun e => e.source = a).reverse.map Edge.target

/-- `edges_directed(a, Direction::Incoming)`, the newest first. -/
def incoming (g : Graph N E) (a : NodeIndex) : List (Edge E) :=
  (g.edges.filter fun e => e.target = a).reverse

/-- `graph[a]`, the weight of node `a`. -/
def index (g : Graph N E) (a : NodeIndex) : Outcome ε N :=
  match g.nodes[a]? with
  | some w => .ok w
  | none => .panic "index out of bounds"

@[simp] theorem index_eq_ok (g : Graph N E) (a : NodeIndex) (w : N) :
    (g.index a : Outcome ε N) = .ok w ↔ g.nodes[a]? = some w := by
  cases h : g.nodes[a]? <;> simp [index, h]

/-- The pairs of nodes that the edges join. -/
def pairs (g : Graph N E) : List (NodeIndex × NodeIndex) :=
  g.edges.map fun e => (e.source, e.target)

/-- What `update_edge` leaves when it does not panic. -/
def set_edge (g : Graph N E) (a b : NodeIndex) (w : E) : Graph N E :=
  if g.contains_edge a b then
    { g with edges := g.edges.map fun e => if e.source = a ∧ e.target = b then ⟨a, b, w⟩ else e }
  else { g with edges := g.edges ++ [⟨a, b, w⟩] }

/-- The calls `update_edge(a, b, w)` for the triples of `vs`, in order. -/
def set_edges (g : Graph N E) (vs : List (NodeIndex × NodeIndex × E)) : Graph N E :=
  vs.foldl (fun g v => g.set_edge v.1 v.2.1 v.2.2) g

/-- The weight of the last call for the pair `(a, b)` among `vs`. -/
def last_weight (vs : List (NodeIndex × NodeIndex × E)) (a b : NodeIndex) : Option E :=
  ((vs.filter fun v => v.1 = a ∧ v.2.1 = b).getLast?).map fun v => v.2.2

theorem contains_edge_iff (g : Graph N E) (a b : NodeIndex) :
    g.contains_edge a b = true ↔ (a, b) ∈ g.pairs := by
  simp [contains_edge, pairs]

theorem update_edge_eq (g : Graph N E) (a b : NodeIndex) (w : E)
    (h : (a, b) ∈ g.pairs ∨ a < g.nodes.length ∧ b < g.nodes.length) :
    (g.update_edge a b w : Outcome ε (Graph N E)) = .ok (g.set_edge a b w) := by
  unfold update_edge set_edge add_edge
  by_cases hc : g.contains_edge a b
  · simp [hc]
  · have : a < g.nodes.length ∧ b < g.nodes.length := by
      rw [← contains_edge_iff] at h; simpa [hc] using h
    simp [hc, this]

theorem update_edge_ok {g g' : Graph N E} {a b : NodeIndex} {w : E}
    (h : (g.update_edge a b w : Outcome ε (Graph N E)) = .ok g') :
    ((a, b) ∈ g.pairs ∨ a < g.nodes.length ∧ b < g.nodes.length) ∧ g' = g.set_edge a b w := by
  unfold update_edge add_edge at h
  by_cases hc : g.contains_edge a b
  · simp only [hc, if_true, Outcome.ok.injEq] at h
    exact ⟨.inl ((contains_edge_iff g a b).1 hc), by simp [set_edge, hc, h]⟩
  · simp only [hc, if_false, Bool.false_eq_true] at h
    split at h
    · cases h; exact ⟨.inr ‹_›, by simp [set_edge, hc]⟩
    · cases h

/-- `update_edge` panics on a missing node and returns no error. -/
theorem update_edge_ne_err (g : Graph N E) (a b : NodeIndex) (w : E) (e : ε) :
    g.update_edge a b w ≠ .err e := by
  unfold update_edge add_edge; split <;> [simp; split <;> simp]

@[simp] theorem set_edge_nodes (g : Graph N E) (a b : NodeIndex) (w : E) :
    (g.set_edge a b w).nodes = g.nodes := by
  unfold set_edge; split <;> rfl

theorem pairs_set_edge (g : Graph N E) (a b : NodeIndex) (w : E) :
    (g.set_edge a b w).pairs = if (a, b) ∈ g.pairs then g.pairs else g.pairs ++ [(a, b)] := by
  by_cases hc : g.contains_edge a b
  · rw [if_pos ((contains_edge_iff g a b).1 hc)]
    simp only [set_edge, hc, if_true, pairs, List.map_map]
    congr 1; funext e; simp only [Function.comp]; split <;> simp_all
  · rw [if_neg (mt (contains_edge_iff g a b).2 hc)]
    simp [set_edge, hc, pairs]

/-- An edge after `update_edge` is the one it wrote, or an older edge of another pair. -/
theorem mem_edges_set_edge {g : Graph N E} {a b : NodeIndex} {w : E} {e : Edge E}
    (h : e ∈ (g.set_edge a b w).edges) :
    e = ⟨a, b, w⟩ ∨ e ∈ g.edges ∧ ¬(e.source = a ∧ e.target = b) := by
  unfold set_edge at h
  split at h
  · simp only [List.mem_map] at h
    obtain ⟨e', he', rfl⟩ := h
    split
    · exact .inl rfl
    · exact .inr ⟨he', ‹_›⟩
  · rename_i hc
    simp only [List.mem_append, List.mem_singleton] at h
    rcases h with h | rfl
    · refine .inr ⟨h, fun hab => hc ?_⟩
      exact List.any_eq_true.2 ⟨e, h, by simp [hab.1, hab.2]⟩
    · exact .inl rfl

@[simp] theorem set_edges_nodes (g : Graph N E) (vs : List (NodeIndex × NodeIndex × E)) :
    (g.set_edges vs).nodes = g.nodes := by
  induction vs generalizing g with
  | nil => rfl
  | cons v vs ih => exact (ih _).trans (set_edge_nodes _ _ _ _)

theorem set_edges_append (g : Graph N E) (vs : List (NodeIndex × NodeIndex × E))
    (v : NodeIndex × NodeIndex × E) :
    g.set_edges (vs ++ [v]) = (g.set_edges vs).set_edge v.1 v.2.1 v.2.2 := by
  simp [set_edges, List.foldl_append]

/-- A loop that makes the calls of `vs x` for each `x` makes the calls of them all. -/
theorem foldl_set_edges {α : Type} (vs : α → List (NodeIndex × NodeIndex × E)) (l : List α)
    (g : Graph N E) : l.foldl (fun g x => g.set_edges (vs x)) g = g.set_edges (l.flatMap vs) := by
  induction l generalizing g with
  | nil => rfl
  | cons x l ih =>
    rw [List.foldl_cons, ih, List.flatMap_cons]
    exact (List.foldl_append _ _ _ _).symm

theorem mem_pairs_set_edges (g : Graph N E) (vs : List (NodeIndex × NodeIndex × E))
    (x y : NodeIndex) :
    (x, y) ∈ (g.set_edges vs).pairs ↔ (x, y) ∈ g.pairs ∨ ∃ w, (x, y, w) ∈ vs := by
  induction vs using List.reverseRecOn with
  | nil => simp [set_edges]
  | append_singleton vs v ih =>
    obtain ⟨a, b, w⟩ := v
    have hv : (∃ w', (x, y, w') ∈ vs ++ [(a, b, w)]) ↔
        (∃ w', (x, y, w') ∈ vs) ∨ (x, y) = (a, b) := by
      simp [exists_or, and_assoc]
    rw [set_edges_append, pairs_set_edge, hv, ← or_assoc, ← ih]
    split
    · next hab => exact ⟨Or.inl, fun h => h.elim id fun e => e ▸ hab⟩
    · simp only [List.mem_append, List.mem_singleton]

theorem nodup_pairs_set_edges {g : Graph N E} (vs : List (NodeIndex × NodeIndex × E))
    (h : g.pairs.Nodup) : (g.set_edges vs).pairs.Nodup := by
  induction vs using List.reverseRecOn with
  | nil => exact h
  | append_singleton vs v ih =>
    rw [set_edges_append, pairs_set_edge]
    split
    · exact ih
    · exact List.nodup_append.2 ⟨ih, List.nodup_singleton _, by simpa⟩

theorem last_weight_append (vs : List (NodeIndex × NodeIndex × E))
    (v : NodeIndex × NodeIndex × E) (a b : NodeIndex) :
    last_weight (vs ++ [v]) a b =
      if v.1 = a ∧ v.2.1 = b then some v.2.2 else last_weight vs a b := by
  unfold last_weight
  by_cases hv : v.1 = a ∧ v.2.1 = b <;> simp [hv, List.filter_append, List.filter_cons]

/-- The last call for a pair is one of the calls. -/
theorem mem_of_last_weight {vs : List (NodeIndex × NodeIndex × E)} {a b : NodeIndex} {w : E}
    (h : last_weight vs a b = some w) : (a, b, w) ∈ vs := by
  obtain ⟨v, hv, rfl⟩ := Option.map_eq_some'.1 h
  obtain ⟨hmem, hab⟩ := List.mem_filter.1 (List.mem_of_getLast?_eq_some hv)
  obtain ⟨rfl, rfl⟩ := of_decide_eq_true hab
  exact hmem

/-- On a graph without edges, each edge that the calls leave carries the weight of the
last call for its pair. -/
theorem weight_set_edges {g : Graph N E} (vs : List (NodeIndex × NodeIndex × E))
    (h : g.edges = []) {e : Edge E} (he : e ∈ (g.set_edges vs).edges) :
    last_weight vs e.source e.target = some e.weight := by
  induction vs using List.reverseRecOn generalizing e with
  | nil => rw [show g.set_edges [] = g from rfl, h] at he; cases he
  | append_singleton vs v ih =>
    rw [set_edges_append] at he
    rw [last_weight_append]
    rcases mem_edges_set_edge he with rfl | ⟨he, hne⟩
    · simp
    · rw [if_neg fun h => hne ⟨h.1.symm, h.2.symm⟩]; exact ih he

/-- `neighbors(a)` names each node at most once when no pair has two edges. -/
theorem nodup_neighbors {g : Graph N E} (h : g.pairs.Nodup) (a : NodeIndex) :
    (g.neighbors a).Nodup := by
  simp only [neighbors, List.map_reverse, List.nodup_reverse]
  have hf : ((g.edges.filter fun e => e.source = a).map fun e => (e.source, e.target)).Nodup :=
    h.sublist ((List.filter_sublist _).map _)
  have := hf.map_on (f := Prod.snd) (by
    simp only [List.mem_map, List.mem_filter, decide_eq_true_eq]
    rintro _ ⟨e, ⟨-, h1⟩, rfl⟩ _ ⟨e', ⟨-, h2⟩, rfl⟩ h3
    exact Prod.ext (h1.trans h2.symm) h3)
  simpa [List.map_map] using this

/-- The edges into a node come from distinct nodes when no pair has two edges. -/
theorem nodup_incoming_sources {g : Graph N E} (h : g.pairs.Nodup) (a : NodeIndex) :
    ((g.incoming a).map Edge.source).Nodup := by
  simp only [incoming, List.map_reverse, List.nodup_reverse]
  have hf : ((g.edges.filter fun e => e.target = a).map fun e => (e.source, e.target)).Nodup :=
    h.sublist ((List.filter_sublist _).map _)
  have := hf.map_on (f := Prod.fst) (by
    simp only [List.mem_map, List.mem_filter, decide_eq_true_eq]
    rintro _ ⟨e, ⟨-, h1⟩, rfl⟩ _ ⟨e', ⟨-, h2⟩, rfl⟩ h3
    exact Prod.ext h3 (h1.trans h2.symm))
  simpa [List.map_map] using this

theorem mem_neighbors (g : Graph N E) (a b : NodeIndex) :
    b ∈ g.neighbors a ↔ (a, b) ∈ g.pairs := by
  simp only [neighbors, pairs, List.mem_map, List.mem_reverse, List.mem_filter,
    decide_eq_true_eq, Prod.mk.injEq]
  exact ⟨fun ⟨e, ⟨he, h1⟩, h2⟩ => ⟨e, he, h1, h2⟩, fun ⟨e, he, h1, h2⟩ => ⟨e, ⟨he, h1⟩, h2⟩⟩

end Graph

end uv_resolver
