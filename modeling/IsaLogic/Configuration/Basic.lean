import IsaLogic.Database.Basic

/-!
# Configurations

What is known of a target. A full configuration lists everything the target
implements, so what it does not mention is false. A partial one lists what is
mandatory and what is prohibited, and leaves the rest open. `evaluate` is the
verdict of a configuration on a term.
-/

namespace IsaLogic

/-- A target that is known completely. -/
structure FullConfig where
  /-- The implemented extensions and their versions, ascending. -/
  extensions : List (String × Version) := []
  /-- The parameters and their values, ascending. -/
  params : List (String × ParamValue) := []
  /-- The register width; none if the target runs at either. -/
  xlen : Option Xlen := none
deriving Inhabited

/-- A target that is known in part. -/
structure PartialConfig where
  mandatory : List ExtensionTerm := []
  prohibited : List ExtensionTerm := []
  /-- The parameters whose value is fixed, ascending. -/
  params : List (String × ParamValue) := []
  /-- The register widths that are left; an empty list leaves both. -/
  possibleXlens : List Xlen := []
deriving Inhabited

/-- What is known of a target. -/
inductive Configuration where
  /-- Nothing is known. -/
  | unconfigured
  | partly (config : PartialConfig)
  | fully (config : FullConfig)
deriving Inhabited

namespace FullConfig

/-- What the configuration knows of an extension. -/
def fact (config : FullConfig) (name : String) : ExtensionFact :=
  match lookup? name config.extensions with
  | some version => .implemented version
  | none => .absent

/-- The verdict on a term. -/
def evaluate (config : FullConfig) : Term → Verdict
  | .extension ext => ext.evaluate (config.fact ext.name)
  | .parameter param =>
    match lookup? param.name config.params with
    | some value => param.evaluate (some value)
    | none => .no
  | .xlen width =>
    match config.xlen with
    | some fixed => width.evaluate [fixed]
    | none => width.evaluate Xlen.both
  | .free _ => .maybe

end FullConfig

namespace PartialConfig

/-- The versions that each of some requirements on an extension leaves. -/
def leaves (name : String) (known : List Version) (terms : List ExtensionTerm) :
    List (List Version) :=
  (terms.filter fun term => term.name == name).map fun term => term.satisfying known

/-- The verdict of the mandatory requirements on a wanted set of versions: the
first that leaves only wanted versions, or no wanted one, decides. One that leaves
no version at all says nothing. -/
def verdictOfMandatory (wanted : List Version) : List (List Version) → Option Verdict
  | [] => none
  | allowed :: rest =>
    if allowed.isEmpty then verdictOfMandatory wanted rest
    else if allowed.all wanted.contains then some .yes
    else if allowed.all fun version => !wanted.contains version then some .no
    else verdictOfMandatory wanted rest

/-- The verdict on an extension. Of one that the database does not know, only the
listed terms themselves are decided. -/
def evaluateExtension (config : PartialConfig) (db : Database) (ext : ExtensionTerm) : Verdict :=
  let known := db.versions ext.name
  if known.isEmpty then
    if config.mandatory.contains ext then .yes
    else if config.prohibited.contains ext then .no
    else .maybe
  else
    let wanted := ext.satisfying known
    if wanted.isEmpty then .no
    else
      match verdictOfMandatory wanted (leaves ext.name known config.mandatory) with
      | some verdict => verdict
      | none =>
        let banned := leaves ext.name known config.prohibited
        if banned.any fun versions => wanted.all versions.contains then .no else .maybe

/-- The verdict on a term. -/
def evaluate (config : PartialConfig) (db : Database) : Term → Verdict
  | .extension ext => config.evaluateExtension db ext
  | .parameter param => param.evaluate (lookup? param.name config.params)
  | .xlen width =>
    if config.possibleXlens.isEmpty then width.evaluate Xlen.both
    else width.evaluate config.possibleXlens
  | .free _ => .maybe

end PartialConfig

namespace Configuration

/-- The word for how much is known. -/
def kind : Configuration → String
  | unconfigured => "unconfigured"
  | partly _ => "partial"
  | fully _ => "full"

/-- The verdict on a term. -/
def evaluate (config : Configuration) (db : Database) (term : Term) : Verdict :=
  match config with
  | unconfigured => .maybe
  | partly config => config.evaluate db term
  | fully config => config.evaluate term

/-- The known value of a parameter. -/
def param? (config : Configuration) (name : String) : Option ParamValue :=
  match config with
  | unconfigured => none
  | partly config => lookup? name config.params
  | fully config => lookup? name config.params

end Configuration

end IsaLogic
