/-!
# Computations that may stop

`Meets x Q E` says of a computation that it ends with a value for which `Q` holds, or stops with an
error for which `E` holds. What a part of a computation meets carries over to the whole by
`Meets.bind`.
-/

namespace Nsdci.Lib

variable {ε α β : Type}

/-- The value of a computation satisfies `Q`; if it stops, its error satisfies `E`. -/
def Meets (x : Except ε α) (Q : α → Prop) (E : ε → Prop) : Prop :=
  match x with
  | .ok a => Q a
  | .error e => E e

variable {x : Except ε α} {f : α → Except ε β} {P Q : α → Prop} {R : β → Prop} {E F : ε → Prop}

/-- One computation after another. -/
theorem Meets.bind (hx : Meets x P E) (hf : ∀ a, P a → Meets (f a) R E) :
    Meets (x >>= f) R E := by
  cases x with
  | ok a => exact hf a hx
  | error e => exact hx

theorem Meets.mono (hx : Meets x P E) (hQ : ∀ a, P a → Q a) (hE : ∀ e, E e → F e) :
    Meets x Q F := by
  cases x with
  | ok a => exact hQ a hx
  | error e => exact hE e hx

theorem Meets.imp (hx : Meets x P E) (hQ : ∀ a, P a → Q a) : Meets x Q E :=
  hx.mono hQ fun _ => id

end Nsdci.Lib
