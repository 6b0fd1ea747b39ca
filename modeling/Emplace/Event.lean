import Emplace.Numeral
import Emplace.Region.Kernel

/-
  Events: what the library reports while it works.

  Each event carries its facts, and the ticket of the region it is about where it is about one, so
  that the history of one region can be picked out of a log (`Event.region?`).  The ticket is not
  part of the text.  `Event.render` writes level, headline and fields; how an address is shown is up
  to the caller.
-/

namespace Emplace

inductive Level
  | error
  | warn
  | info
  | debug
  | trace
  deriving DecidableEq

namespace Level

/-- How talkative a log is that shows events up to this level. -/
def rank : Level → Nat
  | error => 1
  | warn => 2
  | info => 3
  | debug => 4
  | trace => 5

def name : Level → String
  | error => "ERROR"
  | warn => "WARN"
  | info => "INFO"
  | debug => "DEBUG"
  | trace => "TRACE"

end Level

inductive Event
  | acquired (region size capacity : Nat) (base : Word) (strategy : Strategy)
  | mappingRefused (size : Nat) (strategy : Strategy) (cause : Denial)
  | sealRefused (region : Nat) (cause : Denial)
  | payloadLoaded (region bytes : Nat) (base : Word)
  | siteResolved (field target : Nat) (distance : Int)
  | callableBound (region : Nat) (base : Word) (length args : Nat) (returns : Bool)
  | released (region : Nat) (base : Word) (capacity : Nat)
  | greetingLoaded (strategy : Strategy) (region : String) (times : Nat)
  | commandFailed (cause : Error)
  deriving DecidableEq

namespace Event

/-- The ticket of the region that the event is about. -/
def region? : Event → Option Nat
  | acquired region .. => some region
  | sealRefused region _ => some region
  | payloadLoaded region .. => some region
  | callableBound region .. => some region
  | released region .. => some region
  | _ => none

def level : Event → Level
  | acquired .. => .debug
  | mappingRefused .. => .warn
  | sealRefused .. => .warn
  | payloadLoaded .. => .debug
  | siteResolved .. => .trace
  | callableBound .. => .debug
  | released .. => .trace
  | greetingLoaded .. => .info
  | commandFailed .. => .error

/-- The part of the program that reports the event, as log settings name it. -/
def source : Event → String
  | acquired .. => "jitcall::loader::region"
  | mappingRefused .. => "jitcall::loader::region"
  | sealRefused .. => "jitcall::loader::region"
  | payloadLoaded .. => "jitcall::loader"
  | siteResolved .. => "jitcall::loader::reloc"
  | callableBound .. => "jitcall::loader::callable"
  | released .. => "jitcall::loader::region"
  | greetingLoaded .. => "jitcall::cmd::run"
  | commandFailed _ => "jitcall"

/-- What happened. -/
def headline : Event → String
  | acquired .. => "region acquired"
  | mappingRefused .. => "executable mapping refused"
  | sealRefused .. => "sealing region read+execute refused"
  | payloadLoaded .. => "payload loaded"
  | siteResolved .. => "relocation resolved"
  | callableBound .. => "callable bound"
  | released .. => "region released"
  | greetingLoaded .. => "greeting stub loaded"
  | commandFailed _ => "jitcall failed"

/-- The facts of the event under their names; `address` shows the address of a region. -/
def fields (address : Word → String) : Event → List (String × String)
  | acquired _ size capacity base strategy =>
      [("size", toString size), ("capacity", toString capacity), ("base", address base),
        ("strategy", strategy.name)]
  | mappingRefused size strategy cause =>
      [("size", toString size), ("strategy", strategy.name), ("source", cause.message)]
  | sealRefused _ cause => [("source", cause.message)]
  | payloadLoaded _ bytes base => [("bytes", toString bytes), ("base", address base)]
  | siteResolved field target distance =>
      [("placeholder", toString field), ("data_offset", toString target),
        ("distance", toString distance)]
  | callableBound _ base length args returns =>
      [("base", address base), ("len", toString length), ("args", toString args),
        ("returns", toString returns)]
  | released _ base capacity => [("base", address base), ("capacity", toString capacity)]
  | greetingLoaded strategy region times =>
      [("strategy", strategy.name), ("region", region), ("repeat", toString times)]
  | commandFailed cause => [("err", cause.message)]

/-- The event on one line: its level, what happened, and the facts in order. -/
def render (address : Word → String) (e : Event) : String :=
  e.level.name ++ " " ++ e.headline ++
    String.join ((e.fields address).map fun (name, value) => " " ++ name ++ "=" ++ value)

end Event

end Emplace
