import Fingerprint.Plan.Basic

/-!
# What a plan does

`Always` says that every step of a plan meets a condition, and `Sometime` that some step does,
whatever the answers to the reads before it. Each also says what holds of the value that the plan
ends with: of every value, or of those reached with no such step before.

Two ways of answering that agree on all reads of a plan give it the same result. An attempt succeeds
if every step is one that it can take, and fails if some step is one that it cannot.
-/

namespace Fingerprint.Plan
set_option autoImplicit false

variable {α β : Type}

inductive Step where
  | input (width : Width) (position : UInt64)
  | table (source : Array UInt8) (width : Width) (position : UInt64)
  | demand (holds : Bool)

/-- Every step meets `ok`, and every value that the plan may end with meets `post`. -/
def Always (ok : Step → Prop) (post : α → Prop) : Plan α → Prop
  | done a => post a
  | input w p next => ok (.input w p) ∧ ∀ x, (next x).Always ok post
  | table t w p next => ok (.table t w p) ∧ ∀ x, (next x).Always ok post
  | demand h next => ok (.demand h) ∧ next.Always ok post

/-- On every course of answers some step meets `hit`, or the plan ends with a value that meets
`post`. -/
def Sometime (hit : Step → Prop) (post : α → Prop) : Plan α → Prop
  | done a => post a
  | input w p next => hit (.input w p) ∨ ∀ x, (next x).Sometime hit post
  | table t w p next => hit (.table t w p) ∨ ∀ x, (next x).Sometime hit post
  | demand h next => hit (.demand h) ∨ next.Sometime hit post

section
variable {ok hit : Step → Prop} {post post' : α → Prop} {p : Plan α} {f : α → Plan β}

theorem Always.imp (hp : p.Always ok post) (h : ∀ a, post a → post' a) : p.Always ok post' := by
  induction p with
  | done a => exact h a hp
  | input w p next ih => exact ⟨hp.1, fun x => ih x (hp.2 x)⟩
  | table t w p next ih => exact ⟨hp.1, fun x => ih x (hp.2 x)⟩
  | demand h next ih => exact ⟨hp.1, ih hp.2⟩

theorem Sometime.imp (hp : p.Sometime hit post) (h : ∀ a, post a → post' a) :
    p.Sometime hit post' := by
  induction p with
  | done a => exact h a hp
  | input w p next ih => exact hp.imp_right fun hp x => ih x (hp x)
  | table t w p next ih => exact hp.imp_right fun hp x => ih x (hp x)
  | demand h next ih => exact hp.imp_right ih

@[simp] theorem always_pure (a : α) : (pure a : Plan α).Always ok post ↔ post a := .rfl

@[simp] theorem sometime_pure (a : α) : (pure a : Plan α).Sometime hit post ↔ post a := .rfl

@[simp] theorem always_bind {post : β → Prop} :
    (p >>= f).Always ok post ↔ p.Always ok fun a => (f a).Always ok post := by
  induction p with
  | done a => exact .rfl
  | input w p next ih => exact and_congr .rfl (forall_congr' ih)
  | table t w p next ih => exact and_congr .rfl (forall_congr' ih)
  | demand h next ih => exact and_congr .rfl ih

@[simp] theorem sometime_bind {post : β → Prop} :
    (p >>= f).Sometime hit post ↔ p.Sometime hit fun a => (f a).Sometime hit post := by
  induction p with
  | done a => exact .rfl
  | input w p next ih => exact or_congr .rfl (forall_congr' ih)
  | table t w p next ih => exact or_congr .rfl (forall_congr' ih)
  | demand h next ih => exact or_congr .rfl ih

@[simp] theorem always_map {post : β → Prop} (g : α → β) :
    (g <$> p).Always ok post ↔ p.Always ok fun a => post (g a) := by
  rw [map_eq_bind, always_bind]
  exact .rfl

@[simp] theorem sometime_map {post : β → Prop} (g : α → β) :
    (g <$> p).Sometime hit post ↔ p.Sometime hit fun a => post (g a) := by
  rw [map_eq_bind, sometime_bind]
  exact .rfl

@[simp] theorem always_ite {c : Prop} [Decidable c] (q : Plan α) :
    (if c then p else q).Always ok post ↔
      (c → p.Always ok post) ∧ (¬ c → q.Always ok post) := by
  split <;> simp_all

@[simp] theorem sometime_ite {c : Prop} [Decidable c] (q : Plan α) :
    (if c then p else q).Sometime hit post ↔
      (c → p.Sometime hit post) ∧ (¬ c → q.Sometime hit post) := by
  split <;> simp_all

theorem sometime_true (p : Plan α) : p.Sometime hit fun _ => True := by
  induction p with
  | done a => trivial
  | input w p next ih => exact .inr ih
  | table t w p next ih => exact .inr ih
  | demand h next ih => exact .inr ih

theorem Always.both {ok' : Step → Prop} (hp : p.Always ok post) (hq : p.Always ok' post') :
    p.Always (fun s => ok s ∧ ok' s) fun a => post a ∧ post' a := by
  induction p with
  | done a => exact ⟨hp, hq⟩
  | input w p next ih => exact ⟨⟨hp.1, hq.1⟩, fun x => ih x (hp.2 x) (hq.2 x)⟩
  | table t w p next ih => exact ⟨⟨hp.1, hq.1⟩, fun x => ih x (hp.2 x) (hq.2 x)⟩
  | demand h next ih => exact ⟨⟨hp.1, hq.1⟩, ih hp.2 hq.2⟩

theorem Always.weaken {ok' : Step → Prop} (hp : p.Always ok post) (h : ∀ s, ok s → ok' s) :
    p.Always ok' post := by
  induction p with
  | done a => exact hp
  | input w p next ih => exact ⟨h _ hp.1, fun x => ih x (hp.2 x)⟩
  | table t w p next ih => exact ⟨h _ hp.1, fun x => ih x (hp.2 x)⟩
  | demand b next ih => exact ⟨h _ hp.1, ih hp.2⟩

theorem Sometime.both (hp : p.Sometime hit post) (hq : p.Always ok post') :
    p.Sometime hit fun a => post a ∧ post' a := by
  induction p with
  | done a => exact ⟨hp, hq⟩
  | input w p next ih => exact hp.imp_right fun hp x => ih x (hp x) (hq.2 x)
  | table t w p next ih => exact hp.imp_right fun hp x => ih x (hp x) (hq.2 x)
  | demand h next ih => exact hp.imp_right fun hp => ih hp hq.2

theorem Always.andThen {post : β → Prop} (hp : p.Always ok post')
    (hf : ∀ a, post' a → (f a).Always ok post) : (p >>= f).Always ok post :=
  always_bind.2 (hp.imp hf)

theorem Sometime.orElse {post : β → Prop} (hp : p.Sometime hit post')
    (hf : ∀ a, post' a → (f a).Sometime hit post) : (p >>= f).Sometime hit post :=
  sometime_bind.2 (hp.imp hf)

/-- The first part does it. -/
theorem Sometime.first {post : β → Prop} (hp : p.Sometime hit fun _ => False) :
    (p >>= f).Sometime hit post :=
  hp.orElse fun _ h => h.elim

/-- The rest does it, if need be by what the first part says of its value. -/
theorem Sometime.after {post : β → Prop} (hp : p.Always ok post')
    (hf : ∀ a, post' a → (f a).Sometime hit post) : (p >>= f).Sometime hit post :=
  ((sometime_true p).both hp).orElse fun a h => hf a h.2

theorem Sometime.later {post : β → Prop} (hf : ∀ a, (f a).Sometime hit post) :
    (p >>= f).Sometime hit post :=
  (sometime_true p).orElse fun a _ => hf a

end

/-! ## Single steps -/

section
variable {ok hit : Step → Prop} (p a b : UInt64) (t : Array UInt8)

@[simp] theorem always_u64 {post : UInt64 → Prop} :
    (u64 p).Always ok post ↔ ok (.input .eight p) ∧ ∀ x, post x := .rfl

@[simp] theorem always_u32 {post : UInt32 → Prop} :
    (u32 p).Always ok post ↔ ok (.input .four p) ∧ ∀ x : UInt64, post x.toUInt32 := .rfl

@[simp] theorem always_u16 {post : UInt16 → Prop} :
    (u16 p).Always ok post ↔ ok (.input .two p) ∧ ∀ x : UInt64, post x.toUInt16 := .rfl

@[simp] theorem always_u8 {post : UInt8 → Prop} :
    (u8 p).Always ok post ↔ ok (.input .one p) ∧ ∀ x : UInt64, post x.toUInt8 := .rfl

@[simp] theorem always_tableU64 {post : UInt64 → Prop} :
    (tableU64 t p).Always ok post ↔ ok (.table t .eight p) ∧ ∀ x, post x := .rfl

@[simp] theorem always_tableU32 {post : UInt32 → Prop} :
    (tableU32 t p).Always ok post ↔ ok (.table t .four p) ∧ ∀ x : UInt64, post x.toUInt32 := .rfl

@[simp] theorem always_demand {h : Bool} {α : Type} {post : α → Prop} (next : Plan α) :
    (demand h next).Always ok post ↔ ok (.demand h) ∧ next.Always ok post := .rfl

@[simp] theorem always_add {post : UInt64 → Prop} :
    (add a b).Always ok post ↔ ok (.demand (fits a b)) ∧ post (a + b) := .rfl

@[simp] theorem always_sub {post : UInt64 → Prop} :
    (sub a b).Always ok post ↔ ok (.demand (b ≤ a)) ∧ post (a - b) := .rfl

@[simp] theorem always_mul {post : UInt64 → Prop} :
    (mul a b).Always ok post ↔ ok (.demand (fitsMul a b)) ∧ post (a * b) := .rfl

@[simp] theorem sometime_u64 {post : UInt64 → Prop} :
    (u64 p).Sometime hit post ↔ hit (.input .eight p) ∨ ∀ x, post x := .rfl

@[simp] theorem sometime_u32 {post : UInt32 → Prop} :
    (u32 p).Sometime hit post ↔ hit (.input .four p) ∨ ∀ x : UInt64, post x.toUInt32 := .rfl

@[simp] theorem sometime_u16 {post : UInt16 → Prop} :
    (u16 p).Sometime hit post ↔ hit (.input .two p) ∨ ∀ x : UInt64, post x.toUInt16 := .rfl

@[simp] theorem sometime_u8 {post : UInt8 → Prop} :
    (u8 p).Sometime hit post ↔ hit (.input .one p) ∨ ∀ x : UInt64, post x.toUInt8 := .rfl

@[simp] theorem sometime_tableU64 {post : UInt64 → Prop} :
    (tableU64 t p).Sometime hit post ↔ hit (.table t .eight p) ∨ ∀ x, post x := .rfl

@[simp] theorem sometime_tableU32 {post : UInt32 → Prop} :
    (tableU32 t p).Sometime hit post ↔
      hit (.table t .four p) ∨ ∀ x : UInt64, post x.toUInt32 := .rfl

@[simp] theorem sometime_demand {h : Bool} {α : Type} {post : α → Prop} (next : Plan α) :
    (demand h next).Sometime hit post ↔ hit (.demand h) ∨ next.Sometime hit post := .rfl

@[simp] theorem sometime_add {post : UInt64 → Prop} :
    (add a b).Sometime hit post ↔ hit (.demand (fits a b)) ∨ post (a + b) := .rfl

@[simp] theorem sometime_sub {post : UInt64 → Prop} :
    (sub a b).Sometime hit post ↔ hit (.demand (b ≤ a)) ∨ post (a - b) := .rfl

@[simp] theorem sometime_mul {post : UInt64 → Prop} :
    (mul a b).Sometime hit post ↔ hit (.demand (fitsMul a b)) ∨ post (a * b) := .rfl

end

/-! ## Running -/

theorem run_congr {ok : Step → Prop} {post : α → Prop} {p : Plan α}
    {read read' : Width → UInt64 → UInt64} (hp : p.Always ok post)
    (h : ∀ w pos, ok (.input w pos) → read w pos = read' w pos) : p.run read = p.run read' := by
  induction p with
  | done a => rfl
  | input w p next ih =>
    show (next (read w p)).run read = (next (read' w p)).run read'
    rw [h w p hp.1]
    exact ih _ (hp.2 _)
  | table t w p next ih => exact ih _ (hp.2 _)
  | demand h next ih => exact ih hp.2

/-- An attempt that can take every step of a plan ends as the plan does. -/
theorem attempt_eq_some_run {ok : Step → Prop} {post : α → Prop} {p : Plan α}
    {read? : Width → UInt64 → Option UInt64} {read : Width → UInt64 → UInt64}
    (hp : p.Always ok post)
    (hinput : ∀ w pos, ok (.input w pos) → read? w pos = some (read w pos))
    (htable : ∀ t w pos, ok (.table t w pos) → pos.toNat + w.bytes ≤ t.size)
    (hdemand : ∀ h, ok (.demand h) → h = true) : p.attempt read? = some (p.run read) := by
  induction p with
  | done a => rfl
  | input w p next ih =>
    rw [attempt, hinput w p hp.1, Option.bind_some]
    exact ih _ (hp.2 _)
  | table t w p next ih =>
    rw [attempt, if_pos (htable t w p hp.1)]
    exact ih _ (hp.2 _)
  | demand h next ih =>
    rw [attempt, if_pos (hdemand h hp.1)]
    exact ih hp.2

/-- An attempt fails at a step that has no answer. -/
theorem attempt_eq_none {hit : Step → Prop} {p : Plan α} {read? : Width → UInt64 → Option UInt64}
    (hp : p.Sometime hit fun _ => False)
    (hinput : ∀ w pos, hit (.input w pos) → read? w pos = none)
    (htable : ∀ t w pos, ¬ hit (.table t w pos)) (hdemand : ∀ h, ¬ hit (.demand h)) :
    p.attempt read? = none := by
  induction p with
  | done a => exact hp.elim
  | input w p next ih =>
    rcases hp with hp | hp
    · rw [attempt, hinput w p hp, Option.bind_none]
    · cases hr : read? w p with
      | none => rw [attempt, hr, Option.bind_none]
      | some x =>
        rw [attempt, hr, Option.bind_some]
        exact ih x (hp x)
  | table t w p next ih =>
    rw [attempt]
    split
    · exact ih _ (hp.resolve_left (htable t w p) _)
    · rfl
  | demand h next ih =>
    rw [attempt]
    split
    · exact ih (hp.resolve_left (hdemand h))
    · rfl

end Fingerprint.Plan
