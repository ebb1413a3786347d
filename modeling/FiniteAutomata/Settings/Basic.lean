import FiniteAutomata.LogLevel

/-!
The settings of a conversion and of its log, and partial settings, in which whatever is not given
takes its default.
-/
namespace FiniteAutomata.Settings

structure LogSettings where
  enabled : Bool := false
  level : LogLevel := .warn
deriving DecidableEq, Repr, Inhabited

structure ConversionSettings where
  maxStates : Option Nat := none
  log : LogSettings := {}
deriving DecidableEq, Repr, Inhabited

structure PartialLogSettings where
  enabled : Option Bool := none
  level : Option LogLevel := none
deriving DecidableEq, Repr, Inhabited

structure PartialConversionSettings where
  maxStates : Option Nat := none
  log : Option PartialLogSettings := none
deriving DecidableEq, Repr, Inhabited

def orDefault (given default : Option α) : Option α := given.or default

def PartialLogSettings.complete (given : PartialLogSettings) : LogSettings :=
  let default : LogSettings := {}
  { enabled := given.enabled.getD default.enabled
    level := given.level.getD default.level }

/-- The settings that were given as a whole, or else `present`. What is missing inside given
settings is not taken from `present`. -/
def LogSettings.orElse (given : Option PartialLogSettings) (present : LogSettings) : LogSettings :=
  (given.map PartialLogSettings.complete).getD present

def PartialConversionSettings.complete (given : PartialConversionSettings) : ConversionSettings :=
  let default : ConversionSettings := {}
  { maxStates := orDefault given.maxStates default.maxStates
    log := default.log.orElse given.log }

def ConversionSettings.orElse (given : Option PartialConversionSettings)
    (present : ConversionSettings) : ConversionSettings :=
  (given.map PartialConversionSettings.complete).getD present

end FiniteAutomata.Settings
