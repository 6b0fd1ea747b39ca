import Emplace.Command.Inspection
import Emplace.Routine

/-
  The commands: greet by running generated code, or show that code.

  A command yields how the program ends, the bytes of standard output, and the events on the way.

  Two things are read by others and are parameters here: the log setting, which says what of the
  events is shown (`LogReader`), and the arguments, which say what to do (`ArgumentReader`).  Both
  are given as the bytes that they are.
-/

namespace Emplace.Command

/-! ## What is read by others -/

/-- Which events are shown. -/
abbrev Filter := Event → Bool

/-- What becomes of a log setting. -/
inductive Setting
  | filter (shows : Filter)
  /-- It is refused as no setting. -/
  | unreadable
  /-- Reading it breaks the program off. -/
  | broken (message : String)

structure LogReader where
  /-- Reads the value of a variable, if it has one. -/
  read : Option (List UInt8) → Setting
  /-- The filter of a text in which all that cannot be read is passed over. -/
  lenient : String → Filter

/-- The setting that takes the place of one that is unreadable, or of none. -/
def standardSetting : String := "warn"

/-- The filter that a setting leads to; the message where the program is broken off instead. -/
def LogReader.filter (reader : LogReader) (setting : Option (List UInt8)) : Except String Filter :=
  match reader.read setting with
  | .filter shows => .ok shows
  | .unreadable => .ok (reader.lenient standardSetting)
  | .broken message => .error message

inductive Request
  | run (times : Nat) (strategy : Strategy)
  | inspect (unresolved : Bool)
  deriving DecidableEq

/-- How the program ends. -/
inductive Exit
  | code (n : Nat)
  /-- The processor met something that it cannot carry out. -/
  | killed
  | endless
  deriving DecidableEq

/-- What the whole program leaves behind. -/
structure Result where
  exit : Exit
  output : List UInt8
  /-- The lines of standard error. -/
  errors : List String
  deriving DecidableEq

/-- Reads the arguments, or ends the program over them: with help, or with a word on what is wrong
    with them. -/
abbrev ArgumentReader := List (List UInt8) → Except Result Request

/-! ## Carrying out a request -/

structure Report where
  exit : Exit
  output : List UInt8
  events : List Event

/-- Lines of text, each with its end. -/
def text (lines : List String) : String := String.join (lines.map (· ++ "\n"))

/-- A report of success that shows lines of text. -/
def showing (lines : List String) (events : List Event) : Report :=
  ⟨.code 0, (text lines).toUTF8.toList, events⟩

def failing (cause : Error) (output : List UInt8) (events : List Event) : Report :=
  ⟨.code 1, output, events ++ [.commandFailed cause]⟩

/-- What the writes bring to standard output. -/
def shown (writes : List X64.WriteCall) : List UInt8 :=
  (writes.filter (·.descriptor = Stub.standardOutput)).flatMap (·.bytes)

/-- Loads the greeting and calls it `times` times. -/
def greet (kernel : Kernel) (times : Nat) (strategy : Strategy) : Report :=
  match Routine.writing kernel 0 Stub.standardOutput Stub.greeting strategy with
  | (.error cause, events) => failing cause [] events
  | (.ok routine, events) =>
      let loaded : Event :=
        .greetingLoaded strategy
          (routine.region.describe (fun a => "0x" ++ Numeral.hex a.toNat) false)
          times
      let runs :=
        routine.runTimes (kernel.services (· = Stub.standardOutput)) .idle times
      let output := shown runs.calls.writes
      let events := events ++ loaded :: runs.events
      match runs.calls.ending with
      | .stuck => ⟨.killed, output, events⟩
      | .endless => ⟨.endless, output, events⟩
      | .arrived =>
          -- the region is given back before a failure is reported
          let events := events ++ [(routine.after runs.calls).region.release]
          match runs.error? with
          | some cause => failing cause output events
          | none => ⟨.code 0, output, events⟩

/-- Shows the greeting's code, before or after its address is filled in. -/
def inspect (unresolved : Bool) : Report :=
  match Stub.writing Stub.standardOutput Stub.greeting with
  | .error cause => failing cause [] []
  | .ok stub =>
      if unresolved then showing (inspection stub.image) []
      else
        match stub.resolve with
        | .error cause => failing cause [] []
        | .ok (distance, image) =>
            showing (inspection image) [.siteResolved stub.site.field stub.message distance]

def execute (kernel : Kernel) : Request → Report
  | .run times strategy => greet kernel times strategy
  | .inspect unresolved => inspect unresolved

/-! ## The whole command -/

/-- The exit code of a program that is broken off. -/
def brokenCode : Nat := 101

/-- Reads the log setting, then the arguments, and carries out what these ask for. -/
def run (kernel : Kernel) (log : LogReader) (arguments : ArgumentReader)
    (setting : Option (List UInt8)) (args : List (List UInt8)) : Result :=
  match log.filter setting with
  | .error message => ⟨.code brokenCode, [], [message]⟩
  | .ok shows =>
      match arguments args with
      | .error result => result
      | .ok request =>
          let report := execute kernel request
          ⟨report.exit, report.output,
            (report.events.filter shows).map (Event.render fun a => toString a.toNat)⟩

end Emplace.Command
