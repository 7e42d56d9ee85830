import ModuleIR.Proofs.Interleaving.Mirroring
import ModuleIR.Proofs.Interleaving.Requests

set_option autoImplicit false

/-!
# Users of one context do not meet

Two users who know no handle of each other's can share a context, whatever the order of their turns:
what succeeds for each of them alone succeeds in between the turns of the other, and the modules of
each are what they are when he works alone. Types, integers and byte arrays may be found in the tables
that the other asked for first, and they outlive what the other erases.
-/
namespace ModuleIR

open List (Forall₂)

def User.other : User → User
  | first => second
  | second => first

namespace Session

/-- The turns of each user are his commands, in their order. -/
def Interleaves (commands : User → List Command) (script : List (User × Command)) : Prop :=
  ∀ user, script.filter (·.1 = user) = (commands user).map (user, ·)

/-- Two sessions, each of one user alone, and one that they share. What a user knows of the shared
context stands for what he knows of his own. -/
structure Abreast (ρ : User → Pairing) (alone : User → Session) (shared : Session) : Prop where
  side : ∀ user, Pairing.SideBySide (ρ user) (ρ user.other) (alone user).context
    (alone user.other).context shared.context
  handles : ∀ user, Forall₂ (ρ user).Handles ((alone user).handles user) (shared.handles user)
  aloneSound : ∀ user, (alone user).Sound
  sharedSound : shared.Sound

variable {s s' : Session}

namespace Sound

variable (sound : s.Sound)
include sound

theorem wellFormed : s.context.WellFormed := by
  obtain ⟨w, reachable, k, found, _⟩ := sound
  exact reachable.sound.wellFormed _ (List.mem_of_getElem? found)

theorem distinct : s.context.Distinct := by
  obtain ⟨w, reachable, k, found, _⟩ := sound
  exact reachable.distinct _ (List.mem_of_getElem? found)

end Sound

theorem turn_eq_some {user : User} {command : Command} : s.turn user command = some s' ↔
    ∃ done, command.run (s.handles user) s.context = some done ∧
      ⟨done.2, Function.update s.handles user (s.handles user ++ done.1)⟩ = s' := by
  simp only [turn, Option.bind_eq_bind, Option.bind_eq_some_iff, Option.pure_def,
    Option.some.injEq]

theorem abreast_start (others : User → Nat) (n : Nat) :
    Abreast (fun _ => .empty) (fun user => start (others user)) (start n) where
  side _ := .new _ _ _
  handles _ := .nil
  aloneSound user := start_sound (others user)
  sharedSound := start_sound n

/-- A turn that a user can take alone he can take in the shared context. -/
theorem Abreast.turn {ρ : User → Pairing} {alone : User → Session} {shared next : Session}
    (abreast : Abreast ρ alone shared) {user : User} {command : Command}
    (taken : (alone user).turn user command = some next) :
    ∃ ρ' shared', shared.turn user command = some shared' ∧
      Abreast ρ' (Function.update alone user next) shared' := by
  obtain ⟨done, ran, rfl⟩ := turn_eq_some.mp taken
  have own := abreast.aloneSound user
  obtain ⟨done', ran', σ, sub, side, answers⟩ := Pairing.matches_command (abreast.side user)
    own.wellFormed (abreast.aloneSound user.other).wellFormed abreast.sharedSound.wellFormed
    own.distinct abreast.sharedSound.distinct (abreast.handles user) command done ran
  have taken' : shared.turn user command = some _ := turn_eq_some.mpr ⟨done', ran', rfl⟩
  refine ⟨Function.update ρ user σ, _, taken', ?_, ?_, ?_, turn_sound abreast.sharedSound taken'⟩
  · intro u
    cases user <;> cases u <;> first | exact side | exact side.symm
  · intro u
    by_cases same : u = user
    · subst same
      simp only [Function.update_self]
      exact List.rel_append ((abreast.handles u).imp fun _ _ => Pairing.Handles.mono sub) answers
    · simp only [Function.update_of_ne same]
      exact abreast.handles u
  · intro u
    by_cases same : u = user
    · subst same
      rw [Function.update_self]
      exact turn_sound own taken
    · rw [Function.update_of_ne same]
      exact abreast.aloneSound u

theorem Abreast.play {script : List (User × Command)} {ρ : User → Pairing}
    {alone done : User → Session} {shared : Session} (abreast : Abreast ρ alone shared)
    (runs : ∀ user, Session.play (script.filter (·.1 = user)) (alone user) = some (done user)) :
    ∃ ρ' shared', Session.play script shared = some shared' ∧ Abreast ρ' done shared' := by
  induction script generalizing ρ alone shared with
  | nil =>
    obtain rfl : alone = done := funext fun user => Option.some.inj (runs user)
    exact ⟨ρ, shared, rfl, abreast⟩
  | cons entry rest ih =>
    obtain ⟨user, command⟩ := entry
    have own := runs user
    rw [List.filter_cons_of_pos (by simp)] at own
    obtain ⟨next, taken, others⟩ := Option.bind_eq_some_iff.mp own
    obtain ⟨ρ', shared', taken', abreast'⟩ := abreast.turn taken
    obtain ⟨ρ'', shared'', played, final⟩ := ih abreast' fun u => by
      by_cases same : u = user
      · subst same
        rw [Function.update_self]
        exact others
      · have kept := runs u
        rw [List.filter_cons_of_neg (by simpa using Ne.symm same)] at kept
        rw [Function.update_of_ne same]
        exact kept
    exact ⟨ρ'', shared'', Option.bind_eq_some_iff.mpr ⟨shared', taken', played⟩, final⟩

/-- Two users share a context and take turns in any order, where each knows only handles that his own
commands gave him. When the commands of each succeed in a context of his own, all succeed in the
shared one, and every module of each has the text, and gets the verdict, that it has there. -/
theorem users_do_not_meet {commands : User → List Command} {script : List (User × Command)}
    (interleaved : Interleaves commands script) {others : User → Nat} {alone : User → Session}
    (runs : ∀ user, play ((commands user).map (user, ·)) (start (others user)) = some (alone user))
    (n : Nat) :
    ∃ shared, play script (start n) = some shared ∧
      ∀ (user : User) (k : Nat) (m : ModuleRef),
        ((alone user).handles user)[k]? = some (.module m) →
          ∃ m', (shared.handles user)[k]? = some (.module m') ∧
            SameModule (alone user).context m shared.context m' := by
  have played (user : User) :
      play (script.filter (·.1 = user)) (start (others user)) = some (alone user) :=
    (congrArg (play · _) (interleaved user)).trans (runs user)
  obtain ⟨ρ, shared, success, abreast⟩ := (abreast_start others n).play played
  refine ⟨shared, success, fun user k m known => ?_⟩
  have same := Pairing.rel_getElem? (abreast.handles user) k
  rw [known] at same
  generalize (shared.handles user)[k]? = h at same
  cases same with | some same =>
  cases same with | module modules =>
  exact ⟨_, rfl, (abreast.side user).left.sameModule (abreast.aloneSound user).wellFormed
    abreast.sharedSound.wellFormed modules⟩

/-- The first user makes a function that returns zero; the second makes a string, whose address has the
same zero in it, and erases its module. -/
def zeroAndString : User → List Command
  | .first => [
    .request (.createModule "zero"),
    .request (.integerType 32),
    .access 1 (.typeView .any),
    .request (.functionType ⟨⟨0⟩, 2⟩ [] false),
    .request (.createFunction ⟨⟨0⟩, 3⟩ .external "zero" ⟨⟨0⟩, 0⟩),
    .request (.createBlock "entry" (some ⟨⟨0⟩, 4⟩) none),
    .request (.constantSigned ⟨⟨0⟩, 1⟩ 0),
    .access 6 (.valueView .any),
    .request (.createReturn (some ⟨⟨0⟩, 7⟩) ⟨⟨0⟩, 5⟩)]
  | .second => [
    .request (.createModule "string"),
    .request (.globalString ⟨⟨0⟩, 0⟩ "Hello" ""),
    .request (.eraseModule ⟨⟨0⟩, 0⟩)]

def zeroAmidString : List (User × Command) :=
  ((zeroAndString .second).take 2).map (.second, ·) ++
    ((zeroAndString .first).take 5).map (.first, ·) ++
    ((zeroAndString .second).drop 2).map (.second, ·) ++
    ((zeroAndString .first).drop 5).map (.first, ·)

theorem zeroAndString_succeed (user : User) :
    (play ((zeroAndString user).map (user, ·)) (start 0)).isSome = true := by
  cases user <;> decide +kernel

theorem zeroAmidString_unmet :
    ∃ shared m, play zeroAmidString (start 2) = some shared ∧
      (shared.handles .first)[0]? = some (.module m) ∧
      (shared.context.moduleText m).toOption =
        some "; ModuleID = 'zero'\n\ndefine i32 @zero() \x7b\nentry:\n  ret i32 0\n\x7d\n" := by
  have interleaved : Interleaves zeroAndString zeroAmidString := fun user => by cases user <;> rfl
  obtain ⟨shared, success, modules⟩ := users_do_not_meet interleaved
    (fun user => Option.eq_some_of_isSome (zeroAndString_succeed user)) 2
  obtain ⟨m, known, same⟩ := modules .first 0 ⟨⟨1⟩, 0⟩ (by decide +kernel)
  exact ⟨shared, m, success, known, same.text.trans (by decide +kernel)⟩

end Session
end ModuleIR
