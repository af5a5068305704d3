import SmartWatch.Theme
import SmartWatch.Lib.Runs

/-! When a change of theme gets lost: `themeChanged` is cleared after the icons
have been drawn, whatever has become of `Theme` since. -/

namespace SmartWatch.Proofs.Theme
open Runs

def Current (t : Themed) : Prop := t.percent = some t.theme ∧ t.icon = some t.theme

instance (t : Themed) : Decidable (Current t) := inferInstanceAs (Decidable (_ ∧ _))

/-- When the display waits with the flag down, the icons are in the current theme. -/
def Shown (t : Themed) : Prop := t.stage = .waiting → t.themeChanged = false → Current t

instance (t : Themed) : Decidable (Shown t) := inferInstanceAs (Decidable (_ → _ → _))

/-- The display clears the flag although an icon is not in the current theme and
no flag is on its way: a whole command has come since the icon was drawn. -/
def Drops (t : Themed) (event : ThemeEvent) : Prop :=
  event = .proceed ∧ t.stage = .clearing ∧ t.storing = false ∧ ¬ Current t

instance (t : Themed) (event : ThemeEvent) : Decidable (Drops t event) := inferInstanceAs (Decidable (_ ∧ _))

/-- With no command half done, an icon can be out of date only while the flag is
up, or while the display is still drawing it for the first time. -/
structure Settled (t : Themed) : Prop where
  first : t.stage = .firstIcon → t.storing = false → t.themeChanged = false → t.percent = some t.theme
  loop : t.stage = .waiting ∨ t.stage = .testing ∨ t.stage = .menu → t.storing = false → t.themeChanged = false → Current t
  redraw : t.stage = .percent ∨ t.stage = .icon ∨ t.stage = .clearing → t.themeChanged = true

theorem settled_start : Settled {} := ⟨nofun, (by rintro (there | there | there) <;> cases there),
  (by rintro (there | there | there) <;> cases there)⟩

theorem Settled.showing {t : Themed} (settled : Settled t) (kept : ¬ Drops t .proceed) : Settled t.stepShow := by
  obtain ⟨first, loop, redraw⟩ := settled
  unfold Themed.stepShow
  cases place : t.stage with
  | firstPercent => exact ⟨fun _ _ _ => rfl, (by rintro (there | there | there) <;> cases there),
      (by rintro (there | there | there) <;> cases there)⟩
  | firstIcon => exact ⟨nofun, fun _ idle down => ⟨first place idle down, rfl⟩,
      (by rintro (there | there | there) <;> cases there)⟩
  | waiting => exact ⟨nofun, fun _ => loop (.inl place), (by rintro (there | there | there) <;> cases there)⟩
  | testing =>
    change Settled { t with stage := if t.themeChanged then .percent else .menu }
    split
    next raised => exact ⟨nofun, (by rintro (there | there | there) <;> cases there), fun _ => raised⟩
    next => exact ⟨nofun, fun _ => loop (.inr (.inl place)), (by rintro (there | there | there) <;> cases there)⟩
  | percent => exact ⟨nofun, (by rintro (there | there | there) <;> cases there), fun _ => redraw (.inl place)⟩
  | icon => exact ⟨nofun, (by rintro (there | there | there) <;> cases there), fun _ => redraw (.inr (.inl place))⟩
  | clearing =>
    refine ⟨nofun, fun _ idle _ => ?_, (by rintro (there | there | there) <;> cases there)⟩
    exact Classical.byContradiction fun old => kept ⟨rfl, place, idle, old⟩
  | menu => exact ⟨nofun, fun _ => loop (.inr (.inr place)), (by rintro (there | there | there) <;> cases there)⟩

theorem Settled.step {t after : Themed} {event : ThemeEvent} (settled : Settled t) (kept : ¬ Drops t event)
    (taken : t.step event = some after) : Settled after := by
  cases event with
  | receive ch =>
    simp only [Themed.step] at taken
    split at taken
    next => cases taken
    next =>
      split at taken
      next =>
        -- until the flag is up nothing is promised
        cases taken
        exact ⟨fun _ idle => (nomatch idle), fun _ idle => (nomatch idle), settled.redraw⟩
      next => cases taken; exact settled
  | raise =>
    simp only [Themed.step] at taken
    split at taken
    next =>
      cases taken
      exact ⟨fun _ _ down => (nomatch down), fun _ _ down => (nomatch down), fun _ => rfl⟩
    next => cases taken
  | proceed =>
    cases taken
    exact settled.showing kept

/-- When nothing is received before the display waits again, the change is lost. -/
theorem Drops.lost {t : Themed} {event : ThemeEvent} (drops : Drops t event) : ¬ Shown t.stepShow.stepShow := by
  obtain ⟨-, clearing, -, old⟩ := drops
  intro shown
  simp only [Themed.stepShow, clearing] at shown
  exact old (shown rfl rfl)

/-- Blue is received while the display pauses behind the `%` it has drawn in red:
the flag for blue is cleared together with the flag for red. -/
theorem blue_is_lost : ¬ ∀ events final, run Themed.step {} events = some final → Shown final := by
  intro always
  have shown := always [.proceed, .proceed, .receive 'R', .raise, .proceed, .proceed, .proceed, .receive 'B', .raise,
      .proceed, .proceed, .proceed]
    { theme := 0x001F, stage := .waiting, percent := some 0xF800, icon := some 0x001F } (by decide)
  exact absurd shown (by decide)

/-- In every run in which the display never clears the flag behind a whole command
that came after the drawing, and in every state with no command half done, no
change of theme is lost. -/
theorem shown_unless_dropped {events : List ThemeEvent} {final : Themed}
    (kept : Taken Themed.step (fun t event => ¬ Drops t event) {} events)
    (reached : run Themed.step {} events = some final) (idle : final.storing = false) : Shown final := by
  have settled := run_guarded (fun t event => ¬ Drops t event) Settled
    (fun _ _ _ settled kept taken => settled.step kept taken) settled_start kept reached
  exact fun waits down => settled.loop (.inl waits) idle down

/-- Red, and blue before the drawing starts. -/
theorem shown_unless_dropped_blue : Shown { theme := 0x001F, stage := .waiting, percent := some 0x001F, icon := some 0x001F } :=
  have reached : run Themed.step {} [.proceed, .proceed, .receive 'R', .raise, .proceed, .receive 'B', .raise,
    .proceed, .proceed, .proceed, .proceed, .proceed] = some _ := by decide
  shown_unless_dropped (by decide) reached rfl

end SmartWatch.Proofs.Theme
