import Emplace.Command
import Emplace.Proofs.Region.Denial
import Emplace.Proofs.Routine.Creation

/-
  The command that greets does all of it or nothing.

  It can fail in one place only: where the routine is made.  That is before the first call, and
  a routine that was made does not fail when it is run (`Routine.runs_of_writing`).  So what the
  kernel answers to two requests decides all.

    * It grants both (`Kernel.Grants`): the greeting is written once for each call.
    * It does not: nothing is written, even if nothing was to be.

  The strategy is of no account beyond that, and neither is the log setting, which decides what
  standard error shows.  There is one exception: where reading the setting breaks the program off,
  that is before its arguments are read (`run_stopped`).  What cannot be read as a setting, or is
  not there, does not break it off (`LogReader.exists_filter`).
-/

namespace Emplace

open X64 (Services WriteCall)

/-! ## The kernel's two answers -/

namespace Kernel

variable {kernel : Kernel} {ticket size capacity : Nat} {strategy : Strategy}
  {place : Place capacity}

/-- A mapping that may be executed in the end is all that a routine asks for. -/
theorem Maps.grants (h : kernel.Maps ticket size strategy place)
    (hpermit : strategy = .staged → kernel.permitExecute ticket = .ok ()) :
    kernel.Grants ticket size strategy := by
  refine ⟨fun capacity' hround => ?_, hpermit⟩
  obtain rfl := Option.some.inj (h.round.symm.trans hround)
  exact ⟨place, h.map⟩

/-- Where nothing becomes executable, a routine lacks the one or the other. -/
theorem DeniesExecution.not_grants (h : kernel.DeniesExecution)
    (hsize : size + pageSize ≤ Offset.signedLimit) : ¬ kernel.Grants ticket size strategy := by
  intro hgrants
  cases strategy with
  | rwx =>
    obtain ⟨capacity, hround, -⟩ := exists_roundUp? hsize
    obtain ⟨place, hmap⟩ := hgrants.map capacity hround
    obtain ⟨errno, hdenied⟩ := h.map ticket capacity
    cases hmap.symm.trans hdenied
  | staged =>
    obtain ⟨errno, hdenied⟩ := h.permitExecute ticket
    cases (hgrants.permitExecute rfl).symm.trans hdenied

end Kernel

/-! ## Routines that write -/

namespace Routine

variable {kernel : Kernel} {ticket : Nat} {image : Image} {strategy : Strategy}
  {descriptor : UInt32} {message : List UInt8}

/-- Without one of the two, no routine is made. -/
theorem create_of_not_grants (h : ¬ kernel.Grants ticket image.size strategy)
    (hpending : image.pending = []) : ∃ cause events,
      create kernel ticket image strategy = (.error (.mappingDenied image.size cause), events) := by
  rcases kernel.refuses_or_maps ticket image.size strategy with
    ⟨cause, hrefuses⟩ | ⟨capacity, place, hmaps⟩
  · obtain ⟨events, hcreate, -⟩ := create_of_refuses hrefuses
    exact ⟨cause, events, hcreate⟩
  · obtain ⟨hstaged, hdenied⟩ := Classical.not_imp.mp fun hpermit => h (hmaps.grants hpermit)
    cases hanswer : kernel.permitExecute ticket with
    | ok u => exact absurd hanswer hdenied
    | error errno => exact ⟨_, _, create_of_barred hmaps hpending hstaged hanswer⟩

/-- **A writer that was made writes**, whoever calls it. -/
theorem writes_of_writing {routine : Routine} {events : List Event}
    (h : writing kernel ticket descriptor message strategy = (.ok routine, events)) :
    routine.length ≠ 0 ∧ routine.region.Fits ∧
      Stub.Writes routine.payload ⟨descriptor, message⟩ := by
  rcases Nat.lt_or_ge message.length 0x100000000 with hlength | hlong
  · obtain ⟨stub, distance, -, -, hwriting⟩ :=
      writing_finished kernel ticket descriptor strategy hlength
    obtain ⟨hcreate, -⟩ := Prod.mk.inj (hwriting.symm.trans h)
    obtain ⟨region, acquisition, hacquire, hload⟩ := Stub.exists_load_of_create hcreate
    obtain ⟨-, hholds⟩ := Region.holds_of_load (.acquired hacquire) hload
    refine ⟨?_, hholds.fits, Stub.writes_of_load hlength (UInt32.toNat_ofNat_of_lt' hlength)
      (.acquired hacquire) hload⟩
    obtain ⟨hpayload, -⟩ := Region.stored_of_load (.acquired hacquire) hload
    have hsize := Stub.size_finished hlength descriptor (UInt32.ofNat message.length)
    show routine.payload.length ≠ 0
    omega
  · rw [writing_of_le kernel ticket descriptor strategy hlong] at h
    cases h

/-- One that is granted its memory is made. -/
theorem writing_of_grants (hlength : message.length < 0x100000000)
    (h : kernel.Grants ticket (25 + message.length) strategy) :
    ∃ routine events,
      writing kernel ticket descriptor message strategy = (.ok routine, events) := by
  obtain ⟨stub, distance, -, -, hwriting⟩ :=
    writing_finished kernel ticket descriptor strategy hlength
  have hsize := Stub.size_finished hlength descriptor (UInt32.ofNat message.length)
  have hroom : (Stub.finished descriptor (.ofNat message.length) message).size + pageSize ≤
      Offset.signedLimit := by
    simp only [hsize, pageSize, Offset.signedLimit]
    omega
  rw [← hsize] at h
  obtain ⟨region, payload, events, -, -, -, hcreate⟩ :=
    Stub.create_of_grants h (Stub.pending_finished hlength _ _) hroom
  rw [hcreate] at hwriting
  exact ⟨_, _, hwriting⟩

/-- One that is not is not made. -/
theorem writing_of_not_grants (hlength : message.length < 0x100000000)
    (h : ¬ kernel.Grants ticket (25 + message.length) strategy) :
    ∃ cause events, writing kernel ticket descriptor message strategy =
      (.error (.mappingDenied (25 + message.length) cause), events) := by
  obtain ⟨stub, distance, image, -, -, hpending, hsize, hwriting⟩ :=
    writing_of_lt kernel ticket descriptor strategy hlength
  rw [← hsize] at h
  obtain ⟨cause, events, hcreate⟩ := create_of_not_grants h hpending
  rw [hcreate, hsize] at hwriting
  exact ⟨cause, _, hwriting⟩

/-- **A writer that was made does not fail**, however often and from wherever it is run, and it comes
    back to each caller that has room for it. -/
theorem runs_of_writing {routine : Routine} {events : List Event}
    (h : writing kernel ticket descriptor message strategy = (.ok routine, events))
    (services : Services) (frames : List Frame) :
    (routine.runAll services frames).error? = none ∧
      ((∀ f ∈ frames, f.Hosts routine.region) →
        Stub.Wrote (routine.runAll services frames) frames.length ⟨descriptor, message⟩) := by
  obtain ⟨hlength, hfits, hwrites⟩ := writes_of_writing h
  constructor
  · obtain ⟨k, -, hall, -⟩ := exists_runAll_eq hlength services frames
    rw [hall]
  · exact Stub.runAll_of_writes hlength hfits hwrites services

end Routine

namespace Command

variable {kernel : Kernel} {strategy : Strategy} {times : Nat}

/-! ## Greeting -/

/-- The number of bytes that a greeting asks for. -/
abbrev greetingSize : Nat := 25 + Stub.greeting.length

/-- With what it asks for, the greeting is written once for each call. -/
theorem greet_of_grants (hkernel : kernel.SparesHost) (h : kernel.Grants 0 greetingSize strategy)
    (times : Nat) : ∃ events, greet kernel times strategy =
      ⟨.code 0, (List.replicate times Stub.greeting).flatten, events⟩ := by
  obtain ⟨routine, events, hwriting⟩ := Routine.writing_of_grants (by decide) h
  have hspares := Stub.sparesHost_of_writing hkernel hwriting
  -- every call starts from the same idle host
  have hhosts : ∀ f ∈ List.replicate times Frame.idle, f.Hosts routine.region := by
    intro f hf
    rw [List.eq_of_mem_replicate hf]
    exact Frame.idle_hosts hspares
  obtain ⟨-, hruns⟩ := Routine.runs_of_writing hwriting
    (kernel.services (· = Stub.standardOutput)) (List.replicate times Frame.idle)
  have hwrote := hruns hhosts
  rw [List.length_replicate, ← Routine.runTimes_eq_runAll] at hwrote
  have houtput : shown (List.replicate times ⟨Stub.standardOutput, Stub.greeting⟩) =
      (List.replicate times Stub.greeting).flatten :=
    Option.some.inj (Stub.captured_replicate times Stub.standardOutput Stub.greeting)
  rw [greet, hwriting]
  dsimp only
  rw [hwrote.writes, hwrote.ending, hwrote.error, houtput]
  exact ⟨_, rfl⟩

/-- Without it, nothing is. -/
theorem greet_of_not_grants (h : ¬ kernel.Grants 0 greetingSize strategy) (times : Nat) :
    ∃ cause events, greet kernel times strategy =
      failing (.mappingDenied greetingSize cause) [] events := by
  obtain ⟨cause, events, hwriting⟩ :=
    Routine.writing_of_not_grants (by decide) h
  refine ⟨cause, events, ?_⟩
  rw [greet, hwriting]

/-! ## The whole command -/

/-- Only where reading breaks the program off, there is no filter. -/
theorem LogReader.exists_filter {log : LogReader} {setting : Option (List UInt8)}
    (h : ∀ message, log.read setting ≠ .broken message) :
    ∃ shows, log.filter setting = .ok shows := by
  unfold filter
  cases hread : log.read setting with
  | filter shows => exact ⟨shows, rfl⟩
  | unreadable => exact ⟨_, rfl⟩
  | broken message => exact absurd hread (h message)

section

variable {log : LogReader} {arguments : ArgumentReader} {setting : Option (List UInt8)}
  {args : List (List UInt8)}

/-- Then the program has said and done nothing. -/
theorem run_of_error {message : String} (h : log.filter setting = .error message)
    (kernel : Kernel) (arguments : ArgumentReader) (args : List (List UInt8)) :
    run kernel log arguments setting args = ⟨.code brokenCode, [], [message]⟩ := by
  rw [run, h]

/-- With a filter, exit and output are those of the request. -/
theorem run_of_ok {shows : Filter} (h : log.filter setting = .ok shows) {request : Request}
    (hread : arguments args = .ok request) (kernel : Kernel) :
    (run kernel log arguments setting args).exit = (execute kernel request).exit ∧
      (run kernel log arguments setting args).output = (execute kernel request).output := by
  rw [run, h]
  dsimp only
  rw [hread]
  exact ⟨rfl, rfl⟩

end

/-- What comes of greeting so many times, under a log setting. -/
structure Greets (kernel : Kernel) (log : LogReader) (setting : Option (List UInt8)) (times : Nat)
    (strategy : Strategy) (r : Result) : Prop where
  /-- All of the output is there, whatever the setting shows. -/
  granted : ∀ shows, log.filter setting = .ok shows → kernel.Grants 0 greetingSize strategy →
    r.exit = .code 0 ∧ r.output = (List.replicate times Stub.greeting).flatten
  /-- None is, and the command fails even where it was to make no calls. -/
  refused : ∀ shows, log.filter setting = .ok shows → ¬ kernel.Grants 0 greetingSize strategy →
    r.exit = .code 1 ∧ r.output = []
  /-- A setting that breaks the program off comes before anything that the kernel says. -/
  stopped : ∀ message, log.filter setting = .error message →
    r.exit = .code brokenCode ∧ r.output = []

theorem greets_run (hkernel : kernel.SparesHost) (log : LogReader) {arguments : ArgumentReader}
    (setting : Option (List UInt8)) {args : List (List UInt8)}
    (hread : arguments args = .ok (.run times strategy)) :
    Greets kernel log setting times strategy (run kernel log arguments setting args) := by
  constructor
  case granted =>
    intro shows hsetting hgrants
    obtain ⟨hexit, houtput⟩ := run_of_ok hsetting hread kernel
    obtain ⟨events, hgreet⟩ := greet_of_grants hkernel hgrants times
    rw [hexit, houtput, execute, hgreet]
    exact ⟨rfl, rfl⟩
  case refused =>
    intro shows hsetting hgrants
    obtain ⟨hexit, houtput⟩ := run_of_ok hsetting hread kernel
    obtain ⟨cause, events, hgreet⟩ := greet_of_not_grants hgrants times
    rw [hexit, houtput, execute, hgreet]
    exact ⟨rfl, rfl⟩
  case stopped =>
    intro message hsetting
    rw [run_of_error hsetting]
    exact ⟨rfl, rfl⟩

/-- **Greeting is all or nothing.**  It is written in full and the command succeeds, or nothing is
    written and it does not; no call fails on the way, and each comes back.  This is so for every
    reader of log settings and of arguments, where the arguments ask for the greeting, and for every
    kernel that maps nothing where its callers are.  Only a setting that breaks the program off can
    stop it before. -/
theorem run_all_or_nothing (hkernel : kernel.SparesHost) (log : LogReader)
    {arguments : ArgumentReader} {args : List (List UInt8)}
    (hread : arguments args = .ok (.run times strategy)) :
    (∀ setting,
      Greets kernel log setting times strategy (run kernel log arguments setting args)) ∧
    (∀ setting, (run kernel log arguments setting args).exit ≠ .code 0 →
      (run kernel log arguments setting args).output = []) ∧
    (∀ setting, (∀ message, log.read setting ≠ .broken message) →
      ∃ shows, log.filter setting = .ok shows) ∧
    (kernel.DeniesExecution → ¬ kernel.Grants 0 greetingSize strategy) ∧
    ∀ (ticket : Nat) (descriptor : UInt32) (message : List UInt8) (routine : Routine)
      (events : List Event),
      Routine.writing kernel ticket descriptor message strategy = (.ok routine, events) →
      Frame.idle.Hosts routine.region ∧
      ∀ (services : Services) (frames : List Frame),
        (routine.runAll services frames).error? = none ∧
        ((∀ f ∈ frames, f.Hosts routine.region) →
          Stub.Wrote (routine.runAll services frames) frames.length ⟨descriptor, message⟩) := by
  refine ⟨fun setting => greets_run hkernel log setting hread, fun setting hexit => ?_,
    fun setting => LogReader.exists_filter, fun hdenies => hdenies.not_grants (by decide),
    fun _ _ _ _ _ hwriting => ?_⟩
  · have hgreets := greets_run hkernel log setting hread
    cases hsetting : log.filter setting with
    | error message => exact (hgreets.stopped message hsetting).2
    | ok shows =>
      by_cases hgrants : kernel.Grants 0 greetingSize strategy
      · exact absurd (hgreets.granted shows hsetting hgrants).1 hexit
      · exact (hgreets.refused shows hsetting hgrants).2
  · exact ⟨Frame.idle_hosts (Stub.sparesHost_of_writing hkernel hwriting),
      Routine.runs_of_writing hwriting⟩

/-- A reader that knows the levels by their names, and that a blank in front of a letter of two bytes
    breaks off. -/
def levelReader : LogReader where
  read setting := setting.elim .unreadable fun bytes =>
    if bytes = " é=info".toUTF8.toList then .broken "the text is cut within a letter"
    else (named bytes).elim .unreadable fun level => .filter (shows level)
  lenient setting := (named setting.toUTF8.toList).elim (fun _ => false) shows
where
  /-- The level with this name. -/
  named (bytes : List UInt8) : Option Level :=
    [.error, .warn, .info, .debug, .trace].find? fun level =>
      level.name.toLower.toUTF8.toList = bytes
  /-- What a log shows up to a level. -/
  shows (level : Level) (event : Event) : Bool := event.level.rank ≤ level.rank

/-- A reader of arguments that knows one line of them. -/
def lineReader (line : List String) (request : Request) : ArgumentReader := fun args =>
  if args = line.map (·.toUTF8.toList) then .ok request
  else .error ⟨.code 2, [], ["error: unexpected arguments"]⟩

/-- Two calls, with the permission to execute and without. -/
theorem run_all_or_nothing_twice :
    let line := ["run", "-r2", "--strategy=staged"]
    let arguments := lineReader line (.run 2 .staged)
    let args := line.map (·.toUTF8.toList)
    let trace := some "trace".toUTF8.toList
    let granted := run Kernel.standard levelReader arguments trace args
    let refused := run Kernel.noExecGain levelReader arguments trace args
    Kernel.standard.SparesHost ∧ Kernel.noExecGain.SparesHost ∧
    arguments args = .ok (.run 2 .staged) ∧
    granted.exit = .code 0 ∧ granted.output = Stub.greeting ++ Stub.greeting ∧
    refused.exit = .code 1 ∧ refused.output = [] := by
  intro line arguments args trace granted refused
  have hread : arguments args = .ok (.run 2 .staged) := if_pos rfl
  have hgrants : Kernel.standard.Grants 0 greetingSize .staged :=
    Kernel.standard_grants 0 .staged (by decide)
  obtain ⟨hstandard, -, hsettings, -, -⟩ :=
    run_all_or_nothing Kernel.standard_sparesHost levelReader hread
  obtain ⟨hdenying, -, -, hdenied, -⟩ :=
    run_all_or_nothing Kernel.noExecGain_sparesHost levelReader hread
  have hreadable : levelReader.read trace = .filter (levelReader.shows .trace) := by
    have hother : "trace".toUTF8.toList ≠ " é=info".toUTF8.toList := by decide +kernel
    have hnamed : levelReader.named "trace".toUTF8.toList = some .trace := by decide +kernel
    show (if "trace".toUTF8.toList = " é=info".toUTF8.toList then _ else _) = _
    rw [if_neg hother, hnamed]
    rfl
  obtain ⟨shows, hshows⟩ := hsettings trace fun message => by rw [hreadable]; nofun
  obtain ⟨hexit, houtput⟩ := (hstandard trace).granted shows hshows hgrants
  obtain ⟨hexit', houtput'⟩ :=
    (hdenying trace).refused shows hshows (hdenied Kernel.noExecGain_deniesExecution)
  exact ⟨Kernel.standard_sparesHost, Kernel.noExecGain_sparesHost, hread, hexit, houtput, hexit',
    houtput'⟩

/-- **A blank in front of a letter of two bytes** breaks the program off, with nothing written
    although the kernel would have granted everything. -/
theorem run_stopped :
    let arguments := lineReader ["run"] (.run 1 .rwx)
    let args := ["run".toUTF8.toList]
    let stopped := run Kernel.standard levelReader arguments (some " é=info".toUTF8.toList) args
    arguments args = .ok (.run 1 .rwx) ∧ Kernel.standard.Grants 0 greetingSize .rwx ∧
    stopped.exit = .code 101 ∧ stopped.output = [] := by
  intro arguments args stopped
  have hfilter : levelReader.filter (some " é=info".toUTF8.toList) =
      .error "the text is cut within a letter" := by
    have hread : levelReader.read (some " é=info".toUTF8.toList) =
        .broken "the text is cut within a letter" := if_pos rfl
    rw [LogReader.filter, hread]
  have hstopped : stopped = ⟨.code 101, [], ["the text is cut within a letter"]⟩ :=
    run_of_error hfilter Kernel.standard arguments args
  rw [hstopped]
  exact ⟨if_pos rfl, Kernel.standard_grants 0 .rwx (by decide), rfl, rfl⟩

end Command

end Emplace
