import TtyRec.Lib.History

/-!
# Alarms that warn before they act

An alarm watches the time that has passed since a moment `ref`.  It looks at the clock at
least once a second.  When less than `warning` seconds are left of `limit` it warns, once,
and when `limit` is over it acts, until something resets it.  Its history is a list; warnings
and actions carry the time at which they were seen.

## Main definitions

* `Heralded` — every action of the history was warned of in time.
* `State`, `Ready` — the state, and the invariant.

## Main results

* `Ready.warns`, `Ready.acts`, `Ready.quiet` — looking at the clock.
* `Ready.restart` — starting again.
* `Ready.move_later`, `Ready.move_early` — another `ref` and another `limit`: not
  before the old ones are over, or with all of the warning left.
-/

namespace Alarm

open History

/-- Every action was warned of `warning` seconds before, and nothing reset the alarm in
between. -/
def Heralded {α : Type*} (reset : α → Prop) (warn act : ℤ → α) (warning : ℤ) : List α → Prop :=
  Each fun H x => ∀ now, x = act now →
    ∃ before, Since reset (warn before) H ∧ before + warning ≤ now

/-- What is no action needs no warning. -/
theorem Heralded.append {α : Type*} {reset : α → Prop} {warn act : ℤ → α} {warning : ℤ}
    {H l : List α} (h : Heralded reset warn act warning H) (hl : ∀ now, act now ∉ l) :
    Heralded reset warn act warning (H ++ l) :=
  Each.append h fun _ _ hx now heq => absurd (heq ▸ hx) (hl now)

/-- What an alarm knows: whether it has warned, what it measures, and when it last looked. -/
structure State where
  warned : Bool
  ref : ℤ
  limit : ℤ
  last : ℤ

section Ready

variable {α : Type*} {reset : α → Prop} {warn act : ℤ → α} {warning : ℤ} {armed : Prop}
  {a : State} {H : List α}

/-- The invariant: an alarm that has warned did so in time, and one that has not, but is
armed, still has the time to.  An alarm that is not armed does not look at the clock. -/
structure Ready (reset : α → Prop) (warn act : ℤ → α) (warning : ℤ) (armed : Prop) (a : State)
    (H : List α) : Prop where
  heralded : Heralded reset warn act warning H
  warned : a.warned = true →
    ∃ before, Since reset (warn before) H ∧ before ≤ a.last ∧ before + warning ≤ a.ref + a.limit + 1
  fresh : a.warned = false → armed → a.last - a.ref ≤ a.limit - warning

/-- Something else happens. -/
theorem Ready.append (h : Ready reset warn act warning armed a H) {l : List α}
    (hreset : ∀ x ∈ l, ¬ reset x) (hact : ∀ now, act now ∉ l) :
    Ready reset warn act warning armed a (H ++ l) := by
  refine ⟨h.heralded.append hact, ?_, h.fresh⟩
  intro hw
  obtain ⟨before, hsince, htime⟩ := h.warned hw
  exact ⟨before, hsince.append hreset, htime⟩

/-- The alarm looks at the clock, and does nothing. -/
theorem Ready.quiet (h : Ready reset warn act warning armed a H) {now : ℤ} (hlast : a.last ≤ now)
    (hfresh : a.warned = false → armed → now - a.ref ≤ a.limit - warning) :
    Ready reset warn act warning armed { a with last := now } H := by
  refine ⟨h.heralded, ?_, hfresh⟩
  intro hw
  obtain ⟨before, hsince, hle, htime⟩ := h.warned hw
  exact ⟨before, hsince, hle.trans hlast, htime⟩

/-- It warns, as soon as it is time to. -/
theorem Ready.warns (h : Ready reset warn act warning armed a H) (hne : ∀ t t', warn t ≠ act t')
    {now : ℤ} (harmed : armed) (hfresh : a.warned = false) (htick : now ≤ a.last + 1) :
    Ready reset warn act warning armed { a with warned := true, last := now }
      (H ++ [warn now]) := by
  have htime := h.fresh hfresh harmed
  refine ⟨?_, fun _ => ⟨now, since_concat reset _ H, le_rfl, ?_⟩, ?_⟩
  · exact each_concat.mpr ⟨h.heralded, fun t ht => absurd ht (hne now t)⟩
  · dsimp only
    omega
  · intro hw
    exact absurd hw Bool.noConfusion

/-- It acts, and has warned before: otherwise it would only now warn. -/
theorem Ready.acts (h : Ready reset warn act warning armed a H) (hpos : 0 < warning)
    (hinj : ∀ t t', act t = act t' → t = t') (hact : ∀ t, ¬ reset (act t)) {now : ℤ}
    (harmed : armed) (hlast : a.last ≤ now) (htick : now ≤ a.last + 1)
    (hover : a.limit < now - a.ref) :
    Ready reset warn act warning armed { a with last := now } (H ++ [act now]) := by
  have hwarned : a.warned = true := by
    by_contra hw
    have htime := h.fresh (Bool.eq_false_iff.mpr hw) harmed
    omega
  obtain ⟨before, hsince, hle, htime⟩ := h.warned hwarned
  refine ⟨?_, fun _ => ⟨before, ?_, hle.trans hlast, htime⟩, ?_⟩
  · refine each_concat.mpr ⟨h.heralded, ?_⟩
    intro t ht
    obtain rfl := hinj now t ht
    exact ⟨before, hsince, by omega⟩
  · apply hsince.append
    intro x hx
    rw [List.mem_singleton.mp hx]
    exact hact now
  · intro hw
    rw [hwarned] at hw
    exact absurd hw (by decide)

/-- It is reset, and measures from then on. -/
theorem Ready.restart {armed' : Prop} (h : Ready reset warn act warning armed a H) {x : α}
    (hx : ∀ t, x ≠ act t) {ref limit : ℤ} (hlast : a.last ≤ ref) (hle : warning ≤ limit) :
    Ready reset warn act warning armed' ⟨false, ref, limit, a.last⟩ (H ++ [x]) := by
  refine ⟨each_concat.mpr ⟨h.heralded, fun t ht => absurd ht (hx t)⟩,
    fun hw => absurd hw Bool.noConfusion, ?_⟩
  intro _ _
  dsimp only
  omega

/-- It measures something else, which is not over before. -/
theorem Ready.move_later {armed' : Prop} (h : Ready reset warn act warning armed a H)
    {ref limit : ℤ} (hlater : a.ref + a.limit ≤ ref + limit) (harmed : armed' → armed) :
    Ready reset warn act warning armed' ⟨a.warned, ref, limit, a.last⟩ H := by
  refine ⟨h.heralded, ?_, ?_⟩
  · intro hw
    obtain ⟨before, hsince, hle, htime⟩ := h.warned hw
    exact ⟨before, hsince, hle, by dsimp only; omega⟩
  · intro hw ha
    have htime := h.fresh hw (harmed ha)
    dsimp only
    omega

/-- It measures something else, which begins now and is not shorter than the warning. -/
theorem Ready.move_early {armed' : Prop} (h : Ready reset warn act warning armed a H)
    {ref limit : ℤ} (hlast : a.last ≤ ref) (hle : warning ≤ limit) :
    Ready reset warn act warning armed' ⟨a.warned, ref, limit, a.last⟩ H := by
  refine ⟨h.heralded, ?_, ?_⟩
  · intro hw
    obtain ⟨before, hsince, hbefore, -⟩ := h.warned hw
    exact ⟨before, hsince, hbefore, by dsimp only; omega⟩
  · intro _ _
    dsimp only
    omega

end Ready

end Alarm
