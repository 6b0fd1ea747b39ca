import Emplace.Routine
import Emplace.Listing

/-
  The language of sessions: steps and answers.

  A step names the drafts, images, regions and routines that it works on.  An answer carries the
  values the step made or looked at, not their text, so it can be compared and reasoned about.
-/

namespace Emplace.Session

/-- The kinds of things that a step can name. -/
inductive Kind
  | draft
  | image
  | region
  | routine
  | site
  deriving DecidableEq

def Kind.name : Kind → String
  | draft => "builder"
  | image => "buffer"
  | region => "region"
  | routine => "exe"
  | site => "site"

/-- A site, either one that an earlier step yielded or one made up. -/
inductive SiteName
  | listed (index : Nat)
  | given (site : Site)
  deriving DecidableEq

/-- What to do with a payload after it was loaded. -/
inductive Use
  | nothing
  /-- Bind it without arguments and call it so often; what is written to the captured descriptor is
      kept, and all other descriptors are closed. -/
  | nullary (calls : Nat) (capture : Option UInt32)
  /-- Bind it with one argument and call it with each of these. -/
  | unary (args : List Word)

inductive Step
  /-- A new draft with these bytes. -/
  | draft (draft : String) (bytes : List UInt8)
  | edit (draft : String) (edit : Edit)
  | measure (draft : String)
  | copyDraft (draft copy : String)
  | finish (draft image : String)
  | showImage (image : String)
  | copyImage (image copy : String)
  | resolve (image : String) (site : SiteName) (target : Nat)
  | showSite (site : SiteName) (targets : List Nat)
  | list (image : String)
  | greeting (image : String)
  | stub (image : String) (descriptor : UInt32) (message : List UInt8)
  /-- A stub whose address is filled in at once. -/
  | resolvedStub (image : String) (descriptor : UInt32) (message : List UInt8)
  /-- A stub for a message of this length; no image is kept. -/
  | measureStub (length : Nat)
  | pageSize
  | strategy (strategy : Strategy)
  | acquire (region : String) (size : Nat) (strategy : Strategy)
  | showRegion (region : String)
  | describeRegion (region : String) (onLines : Bool)
  | dropRegion (region : String)
  | load (image region : String) (use : Use)
  | routine (image routine : String) (strategy : Strategy)
  | writer (routine : String) (descriptor : UInt32) (message : List UInt8) (strategy : Strategy)
  | bindRoutine (routine : String)
  | runRoutine (routine : String) (calls : Nat) (capture : Option UInt32)
  | dropRoutine (routine : String)

/-- What came of loading a region and of using what was loaded. -/
structure LoadReport where
  /-- The region after all of it. -/
  region : Region
  /-- The payload, when the load succeeded. -/
  payload? : Option Payload
  /-- The callable, when the payload was bound. -/
  callable? : Option Callable
  /-- What was written to the captured descriptor. -/
  written? : Option (List UInt8)
  /-- What the calls with an argument returned. -/
  returned? : Option (List Word)
  /-- How the last call ended. -/
  ending : X64.Cpu.Ending
  /-- Why the load, or else the binding, failed. -/
  error? : Option Error

inductive Answer
  | missing (kind : Kind) (name : String)
  | failed (cause : Error)
  /-- What an edit yielded, and the size of the draft behind it. -/
  | edited (yield : Yield) (size : Nat)
  | measured (size : Nat)
  | copied (size : Nat)
  | image (image : Image)
  | resolved (distance : Int) (image : Image)
  | notResolved (cause : Error) (image : Image)
  /-- A site, its distances to the targets, and the first listed site that is equal to it. -/
  | site (site : Site) (distances : List (Except Error Int)) (sameAs : Option Nat)
  | listing (lines : List Listing.Line)
  | stub (stub : Stub)
  /-- The image of a stub whose address was filled in. -/
  | resolvedStub (image : Image)
  | number (n : Nat)
  | text (text : String)
  | region (region : Region)
  | loaded (report : LoadReport)
  | routine (routine : Routine)
  | callable (callable : Callable)
  /-- A routine that ran, what was written to the captured descriptor, and how the last run
      ended. -/
  | ran (routine : Routine) (written? : Option (List UInt8)) (ending : X64.Cpu.Ending)

end Emplace.Session
