import RowFormat.Diagnostic
import RowFormat.Fault

namespace RowFormat

structure Decoding (α : Type) where
  result : Except Fault α
  diagnostics : Diagnostics

namespace Decoding

variable {α β : Type}

def ok (a : α) : Decoding α := ⟨.ok a, []⟩

def fail (f : Fault) : Decoding α := ⟨.error f, []⟩

def bind (x : Decoding α) (f : α → Decoding β) : Decoding β :=
  match x.result with
  | .error e => ⟨.error e, x.diagnostics⟩
  | .ok a =>
    let y := f a
    ⟨y.result, x.diagnostics ++ y.diagnostics⟩

instance : Monad Decoding where
  pure := ok
  bind := bind

/-- A result that comes without diagnostics. -/
def ofExcept (x : Except Fault α) : Decoding α := ⟨x, []⟩

/-- A read from the buffer. -/
def access (x : Except BoundsError α) : Decoding α := ofExcept (x.mapError Fault.bounds)

/-- Puts a context around a fault. -/
def within (x : Decoding α) (context : Fault → Fault) : Decoding α :=
  ⟨x.result.mapError context, x.diagnostics⟩

/-- Reports a diagnostic. -/
def note (kind : DiagnosticKind) (position : Nat) (detail : String) : Decoding Unit :=
  ⟨.ok (), [⟨kind, position, detail⟩]⟩

@[simp] theorem pure_eq (a : α) : (pure a : Decoding α) = ok a := rfl

@[simp] theorem bind_eq (x : Decoding α) (f : α → Decoding β) : x >>= f = x.bind f := rfl

@[simp] theorem ok_bind (a : α) (f : α → Decoding β) : (ok a).bind f = f a := by
  simp [bind, ok]

@[simp] theorem fail_bind (e : Fault) (f : α → Decoding β) : (fail e).bind f = fail e := rfl

/-- A sequence succeeds iff both steps do, and reports what they report. -/
theorem bind_eq_ok_iff {x : Decoding α} {f : α → Decoding β} {b : β} {ds : Diagnostics} :
    x.bind f = ⟨.ok b, ds⟩ ↔
      ∃ a ds₁ ds₂, x = ⟨.ok a, ds₁⟩ ∧ f a = ⟨.ok b, ds₂⟩ ∧ ds = ds₁ ++ ds₂ := by
  obtain ⟨e | a, ds₁⟩ := x
  · simp [bind]
  · rcases hf : f a with ⟨r, ds₂⟩
    constructor
    · intro h
      simp only [bind, hf, mk.injEq] at h
      exact ⟨a, ds₁, ds₂, rfl, by rw [hf, h.1], h.2.symm⟩
    · rintro ⟨a', es₁, es₂, hx, hf', rfl⟩
      cases hx
      rw [hf] at hf'
      cases hf'
      simp [bind, hf]

theorem bind_ok (x : Decoding α) : x.bind ok = x := by
  rcases x with ⟨_ | _, ds⟩ <;> simp [bind, ok]

theorem bind_assoc {γ : Type} (x : Decoding α) (f : α → Decoding β) (g : β → Decoding γ) :
    (x.bind f).bind g = x.bind fun a => (f a).bind g := by
  rcases x with ⟨e | a, ds⟩
  · rfl
  · rcases h : f a with ⟨_ | b, es⟩ <;> simp [bind, h]

instance : LawfulMonad Decoding :=
  LawfulMonad.mk' Decoding bind_ok ok_bind bind_assoc

end Decoding

end RowFormat
