import Fingerprint.Proofs.Forms

/-!
# The window of a buffer stays inside its storage

Whatever its owner does to a buffer, from the moment it is made, the window lies inside the storage
and the storage is the one it was made with. So the digest of a buffer is that of the bytes in its
window, and to compute it takes no check.
-/

namespace Fingerprint
open HashFunction
set_option autoImplicit false

namespace Buffer

structure WindowInside (b : Buffer) : Prop where
  position_le_limit : b.position ≤ b.limit
  limit_le_capacity : b.limit.toNat ≤ b.capacity

/-! ## Setting the window -/

section
variable {b : Buffer} {position limit : UInt64}

theorem withWindow_of_inside (h : position ≤ limit) (hlimit : limit.toNat ≤ b.capacity) :
    b.withWindow position limit = .ok { b with position, limit } := by
  have hrange : checkRange b.capacity 0 limit = .ok () :=
    if_pos (by rwa [UInt64.toNat_zero, Nat.zero_add])
  rw [withWindow, if_neg (UInt64.not_lt.2 h), hrange]
  rfl

/-- That the ends cross is told before anything else. -/
theorem withWindow_of_crossed (h : limit < position) :
    b.withWindow position limit = .error (.outOfBounds position 0 limit.toNat) := if_pos h

theorem withWindow_of_beyond (h : position ≤ limit) (hlimit : b.capacity < limit.toNat) :
    b.withWindow position limit = .error (.outOfBounds 0 limit b.capacity) := by
  have hrange : checkRange b.capacity 0 limit = .error (.outOfBounds 0 limit b.capacity) :=
    if_neg (by rw [UInt64.toNat_zero, Nat.zero_add]; exact Nat.not_le_of_lt hlimit)
  rw [withWindow, if_neg (UInt64.not_lt.2 h), hrange]
  rfl

theorem withWindow_ok_iff :
    (∃ b', b.withWindow position limit = .ok b') ↔
      position ≤ limit ∧ limit.toNat ≤ b.capacity := by
  constructor
  · rintro ⟨b', hb'⟩
    by_cases h : position ≤ limit
    · refine ⟨h, Nat.le_of_not_lt fun hlimit => ?_⟩
      rw [withWindow_of_beyond h hlimit] at hb'
      cases hb'
    · rw [withWindow_of_crossed (UInt64.not_le.1 h)] at hb'
      cases hb'
  · rintro ⟨h, hlimit⟩
    exact ⟨_, withWindow_of_inside h hlimit⟩

theorem after_eq_of_refused {s : Step} {e : Refusal} (h : b.step s = .error e) : b.after s = b := by
  rw [after, h]
  rfl

end

/-! ## Steps and runs -/

/-- A step sets the window to one inside the storage, sets the order, makes the buffer anew, or does
nothing. -/
theorem after_cases (b : Buffer) (s : Step) :
    (∃ position limit, position ≤ limit ∧ limit.toNat ≤ b.capacity ∧
      b.after s = { b with position, limit }) ∨
    (∃ order, b.after s = { b with order }) ∨ b.after s = ofBytes b.storage ∨ b.after s = b := by
  cases s with
  | window position limit =>
    cases hstep : b.withWindow position limit with
    | ok b' =>
      obtain ⟨h, hlimit⟩ := withWindow_ok_iff.1 ⟨b', hstep⟩
      refine .inl ⟨position, limit, h, hlimit, ?_⟩
      rw [after, step, withWindow_of_inside h hlimit]
      rfl
    | error e => exact .inr (.inr (.inr (after_eq_of_refused hstep)))
  | order order => exact .inr (.inl ⟨order, rfl⟩)
  | renew => exact .inr (.inr (.inl rfl))

theorem storage_after (b : Buffer) (s : Step) : (b.after s).storage = b.storage := by
  obtain ⟨_, _, -, -, h⟩ | ⟨_, h⟩ | h | h := after_cases b s <;> rw [h]
  rfl

theorem ofBytes_windowInside (storage : Array UInt8) : (ofBytes storage).WindowInside where
  position_le_limit := UInt64.zero_le
  limit_le_capacity := by
    rw [ofBytes, UInt64.toNat_ofNat']
    exact Nat.mod_le _ _

theorem after_windowInside {b : Buffer} (hb : b.WindowInside) (s : Step) :
    (b.after s).WindowInside := by
  obtain ⟨position, limit, hle, hlimit, h⟩ | ⟨order, h⟩ | h | h := after_cases b s <;> rw [h]
  · exact ⟨hle, hlimit⟩
  · exact ⟨hb.position_le_limit, hb.limit_le_capacity⟩
  · exact ofBytes_windowInside b.storage
  · exact hb

theorem storage_run (b : Buffer) (steps : List Step) : (b.run steps).storage = b.storage := by
  induction steps generalizing b with
  | nil => rfl
  | cons s steps ih => exact (ih (b.after s)).trans (storage_after b s)

theorem run_windowInside {b : Buffer} (hb : b.WindowInside) (steps : List Step) :
    (b.run steps).WindowInside := by
  induction steps generalizing b with
  | nil => exact hb
  | cons s steps ih => exact ih (after_windowInside hb s)

/-! ## What the window holds -/

section
variable {b : Buffer} (hb : b.WindowInside)
include hb

theorem remaining_eq_extract :
    b.remaining = b.storage.extract b.position.toNat b.limit.toNat :=
  if_pos ⟨hb.position_le_limit, hb.limit_le_capacity⟩

theorem size_remaining : b.remaining.size = b.limit.toNat - b.position.toNat := by
  have hlimit : b.limit.toNat ≤ b.storage.size := hb.limit_le_capacity
  rw [remaining_eq_extract hb, Array.size_extract, Nat.min_eq_left hlimit]

end

/-! ## All runs together -/

/-- What holds of a buffer that was made with `storage`. -/
structure WindowKept (storage : Array UInt8) (b : Buffer) : Prop extends WindowInside b where
  storage_eq : b.storage = storage
  remaining_eq : b.remaining = storage.extract b.position.toNat b.limit.toNat
  size_remaining : b.remaining.size = b.limit.toNat - b.position.toNat
  accepts : ∀ position limit : UInt64, (∃ b', b.withWindow position limit = .ok b') ↔
    position ≤ limit ∧ limit.toNat ≤ storage.size
  sets : ∀ position limit : UInt64, position ≤ limit → limit.toNat ≤ storage.size →
    b.withWindow position limit = .ok { b with position, limit }
  refusesCrossed : ∀ position limit : UInt64, limit < position →
    b.withWindow position limit = .error (.outOfBounds position 0 limit.toNat) ∧
      b.after (.window position limit) = b
  refusesBeyond : ∀ position limit : UInt64, position ≤ limit → storage.size < limit.toNat →
    b.withWindow position limit = .error (.outOfBounds 0 limit storage.size) ∧
      b.after (.window position limit) = b
  digests : Everywhere fun f => ofBuffer f b = HashFunction.ofBytes f b.remaining ∧
    ∀ offset len : UInt64, offset.toNat + len.toNat ≤ storage.size →
      ofBufferRange f b offset len = .ok (HashFunction.ofBytes f (bytesOf storage offset len))

theorem WindowInside.digests {b : Buffer} (hb : b.WindowInside) :
    Everywhere fun f => ofBuffer f b = HashFunction.ofBytes f b.remaining ∧
      ∀ offset len : UInt64, offset.toNat + len.toNat ≤ b.storage.size →
        ofBufferRange f b offset len =
          .ok (HashFunction.ofBytes f (bytesOf b.storage offset len)) := by
  apply everywhere_readsRange.imp
  intro φ δ _ f hf
  refine ⟨ofBuffer_eq_ofBytes hf b hb.position_le_limit hb.limit_le_capacity, ?_⟩
  intro offset len h
  have hrange := ((ofBufferRange_exact hf b).answers offset len h).2.2
  rwa [Nat.mul_one, Nat.mul_one] at hrange

/-- After any steps from a new buffer on, refused ones included, the window lies inside the storage,
which is as it was; any window inside the storage can be set, a wider one than before as well; and
digests are those of the bytes in the window, or in a range of the storage, in whichever order they
are read. -/
theorem run_windowKept (storage : Array UInt8) (steps : List Step) :
    WindowKept storage ((ofBytes storage).run steps) := by
  have hb := run_windowInside (ofBytes_windowInside storage) steps
  have hstorage : ((ofBytes storage).run steps).storage = storage := storage_run _ steps
  generalize (ofBytes storage).run steps = b at hb hstorage
  subst hstorage
  exact {
    toWindowInside := hb
    storage_eq := rfl
    remaining_eq := remaining_eq_extract hb
    size_remaining := size_remaining hb
    accepts := fun _ _ => withWindow_ok_iff
    sets := fun _ _ => withWindow_of_inside
    refusesCrossed := fun _ _ h =>
      have hrefused := withWindow_of_crossed h
      ⟨hrefused, after_eq_of_refused hrefused⟩
    refusesBeyond := fun _ _ h hlimit =>
      have hrefused := withWindow_of_beyond h hlimit
      ⟨hrefused, after_eq_of_refused hrefused⟩
    digests := hb.digests }

/-- A window narrowed, one refused, and one widened again. -/
theorem run_narrowed_and_widened :
    Everywhere fun f =>
      ofBuffer f ((ofBytes #[9, 1, 2, 3, 9]).run
        [.window 2 3, .order .little, .window 4 2, .window 1 4]) =
        HashFunction.ofBytes f #[1, 2, 3] :=
  (run_windowKept #[9, 1, 2, 3, 9] [.window 2 3, .order .little, .window 4 2, .window 1 4]).digests.imp
    fun _ h => h.1

end Buffer

end Fingerprint
