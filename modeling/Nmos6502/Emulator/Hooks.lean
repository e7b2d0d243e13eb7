import Nmos6502.Emulator.Event

set_option autoImplicit false

namespace Nmos6502.Emulator

structure Reply (σ : Type) where
  state : σ
  halt : Bool := false

structure StepReply (σ : Type) extends Reply σ where
  failure : Option String := none

/-- Functions that are called during a run. Unless they are given they do nothing. -/
structure Hooks (σ : Type) where
  step : Executed → σ → StepReply σ := fun _ state => { state }
  batch : Nat → σ → Reply σ := fun _ state => { state }
  stop : StopReason → σ → Reply σ := fun _ state => { state }

end Nmos6502.Emulator
