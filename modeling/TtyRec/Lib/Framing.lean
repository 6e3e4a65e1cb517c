import Mathlib.Tactic

/-!
# Self-delimiting frames

A *framing* recognises one frame at the head of a list: `next xs` is the frame
and what follows it, or `none` when the head of the list is not (yet) a whole
frame.  Two properties make it self-delimiting: a recognised frame is not
affected by what follows it, and it takes up at least one element.

Everything a reader of such a format relies on follows: the frames of a
concatenation, what a longer prefix of the same list can add, and that a list
built by an encoder is read back.

## Main definitions

* `Framing α β` — a recogniser, with its two properties.
* `Framing.parse` — the longest sequence of frames at the head of a list, and
  what is left of it.

## Main results

* `Framing.parse_append` — parsing goes on where it stopped.
* `Framing.parse_prefix` — a longer prefix has at least the same frames.
* `Framing.parse_flatMap_append` — an encoded sequence is read back.
* `Framing.flatMap_parse`, `Framing.prefix_parse` — the frames of a list are the longest
  encoded sequence that it begins with.
-/

/-- A recogniser of self-delimiting frames. -/
structure Framing (α β : Type*) where
  /-- The frame at the head of a list, and what follows it. -/
  next : List α → Option (β × List α)
  /-- What follows a frame does not change it. -/
  next_append : ∀ {xs b ys}, next xs = some (b, ys) → ∀ zs, next (xs ++ zs) = some (b, ys ++ zs)
  /-- A frame takes up room. -/
  next_length : ∀ {xs b ys}, next xs = some (b, ys) → ys.length < xs.length

namespace Framing

variable {α β : Type*} (F : Framing α β)

/-- The longest sequence of frames at the head of a list, and the rest. -/
def parse (xs : List α) : List β × List α :=
  match h : F.next xs with
  | none => ([], xs)
  | some (b, ys) =>
    have := F.next_length h
    let r := parse ys
    (b :: r.1, r.2)
termination_by xs.length

variable {F}

theorem parse_of_next_none {xs : List α} (h : F.next xs = none) : F.parse xs = ([], xs) := by
  rw [parse]
  split
  · rfl
  · next h' => rw [h] at h'; cases h'

theorem parse_of_next_some {xs ys : List α} {b : β} (h : F.next xs = some (b, ys)) :
    F.parse xs = (b :: (F.parse ys).1, (F.parse ys).2) := by
  rw [parse]
  split
  · next h' => rw [h] at h'; cases h'
  · next b' ys' h' =>
    rw [h, Option.some.injEq, Prod.mk.injEq] at h'
    obtain ⟨rfl, rfl⟩ := h'
    rfl

variable (F) in
/-- Induction along the frames at the head of a list. -/
theorem induction {motive : List α → Prop} (none : ∀ xs, F.next xs = none → motive xs)
    (some : ∀ xs b ys, F.next xs = some (b, ys) → motive ys → motive xs) :
    ∀ xs, motive xs := by
  intro xs
  induction hn : xs.length using Nat.strong_induction_on generalizing xs with
  | _ n ih =>
    cases h : F.next xs with
    | none => exact none xs h
    | some r => exact some xs r.1 r.2 h (ih _ (hn ▸ F.next_length h) r.2 rfl)

/-- What is left over does not begin with a frame. -/
theorem next_leftover (xs : List α) : F.next (F.parse xs).2 = none := by
  induction xs using F.induction with
  | none xs h => rwa [parse_of_next_none h]
  | some xs b ys h ih => rwa [parse_of_next_some h]

/-- **Parsing goes on where it stopped**: the frames of `xs ++ zs` are those of
`xs`, followed by those of what was left of `xs`, continued by `zs`. -/
theorem parse_append (xs zs : List α) :
    F.parse (xs ++ zs) = ((F.parse xs).1 ++ (F.parse ((F.parse xs).2 ++ zs)).1,
      (F.parse ((F.parse xs).2 ++ zs)).2) := by
  induction xs using F.induction with
  | none xs h => rw [parse_of_next_none h]; simp
  | some xs b ys h ih => rw [parse_of_next_some h, parse_of_next_some (F.next_append h zs), ih]; simp

/-- A longer prefix of the same list has at least the same frames. -/
theorem parse_prefix {xs ys : List α} (h : xs <+: ys) : (F.parse xs).1 <+: (F.parse ys).1 := by
  obtain ⟨zs, rfl⟩ := h
  rw [parse_append]
  exact List.prefix_append _ _

/-- A frame is the same in every list that continues it. -/
theorem eq_of_next_prefix {xs ys xs' ys' : List α} {b b' : β} (h : xs <+: ys)
    (hx : F.next xs = some (b, xs')) (hy : F.next ys = some (b', ys')) : b = b' ∧ xs' <+: ys' := by
  obtain ⟨zs, rfl⟩ := h
  rw [F.next_append hx zs, Option.some.injEq, Prod.mk.injEq] at hy
  exact ⟨hy.1, hy.2 ▸ List.prefix_append _ _⟩

section Encoder

variable {enc : β → List α} {Ok : β → Prop}

/-- **An encoded sequence is read back**, and parsing goes on behind it.  All that is asked of the
encoding is that one frame is read back. -/
theorem parse_flatMap_append (henc : ∀ b, Ok b → ∀ zs, F.next (enc b ++ zs) = some (b, zs))
    {bs : List β} (hbs : ∀ b ∈ bs, Ok b) (zs : List α) :
    F.parse (bs.flatMap enc ++ zs) = (bs ++ (F.parse zs).1, (F.parse zs).2) := by
  induction bs with
  | nil => simp
  | cons b bs ih =>
    have hb : F.next (enc b ++ (bs.flatMap enc ++ zs)) = some (b, bs.flatMap enc ++ zs) :=
      henc b (hbs b List.mem_cons_self) _
    rw [List.flatMap_cons, List.append_assoc, parse_of_next_some hb,
      ih fun b' hb' => hbs b' (List.mem_cons_of_mem _ hb')]
    rfl

/-- The frames of a list and what is left over make up the list, when the encoder is right
about every frame that is recognised. -/
theorem flatMap_parse (hdec : ∀ {xs b ys}, F.next xs = some (b, ys) → xs = enc b ++ ys)
    (xs : List α) : (F.parse xs).1.flatMap enc ++ (F.parse xs).2 = xs := by
  induction xs using F.induction with
  | none xs h => rw [parse_of_next_none h]; simp
  | some xs b ys h ih =>
    rw [parse_of_next_some h, List.flatMap_cons, List.append_assoc, ih, ← hdec h]

/-- What holds of a frame when it is recognised holds of all the frames of a list. -/
theorem forall_mem_parse (hok : ∀ {xs b ys}, F.next xs = some (b, ys) → Ok b) (xs : List α) :
    ∀ b ∈ (F.parse xs).1, Ok b := by
  induction xs using F.induction with
  | none xs h => simp [parse_of_next_none h]
  | some xs b ys h ih =>
    rw [parse_of_next_some h, List.forall_mem_cons]
    exact ⟨hok h, ih⟩

/-- **No longer sequence of frames begins the list**, so the parser finds the longest one. -/
theorem prefix_parse (henc : ∀ b, Ok b → ∀ zs, F.next (enc b ++ zs) = some (b, zs)) {bs : List β}
    (hbs : ∀ b ∈ bs, Ok b) {xs : List α} (h : bs.flatMap enc <+: xs) : bs <+: (F.parse xs).1 := by
  obtain ⟨zs, rfl⟩ := h
  rw [parse_flatMap_append henc hbs]
  exact List.prefix_append _ _

end Encoder

end Framing
