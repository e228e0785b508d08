import StringResources.Layout.Routes
import StringResources.Merge.Plan

/-! What a run is to do, checked before any file is touched. -/

namespace StringResources

inductive ConfigError where
  | missingRoot
  | missingLocale
  | badLocale (value : Text) (fault : LocaleCode.Fault)
  | badFileName (value : Text) (fault : FileName.Fault)
  | noFiles
  /-- The root is no directory that can be read. -/
  | rootNotDirectory (root : Text)
  deriving DecidableEq

namespace ConfigError

def message : ConfigError → Text
  | .missingRoot => "must define --root".toList
  | .missingLocale => "must define --locale".toList
  | .badLocale value fault => "invalid locale '".toList ++ value ++ "': ".toList ++ fault.message
  | .badFileName value fault => "invalid resource file name '".toList ++ value ++ "': ".toList ++ fault.message
  | .noFiles => "no resource files given".toList
  | .rootNotDirectory root => "root '".toList ++ root ++ "' is not a readable directory".toList

end ConfigError

/-- The root and the locale, the files to bring up to date, at least one, and how to merge them. -/
structure Config where
  routes : Routes
  files : List FileName
  options : MergeOptions
  files_ne_nil : files ≠ []
  deriving DecidableEq

namespace Config

def localeOf (value : Text) : Except ConfigError LocaleCode := (LocaleCode.ofText value).mapError (.badLocale value)

def fileOf (value : Text) : Except ConfigError FileName := (FileName.ofText value).mapError (.badFileName value)

/-- A value that is there and not empty. -/
def present (value : Option Text) (missing : ConfigError) : Except ConfigError Text :=
  match value with
  | none => .error missing
  | some [] => .error missing
  | some (c :: t) => .ok (c :: t)

/-- The configuration that values given for a run make up. Of several errors the first counts, in the
    order root, locale, files. -/
def ofValues (root locale : Option Text) (files : List Text) (options : MergeOptions) : Except ConfigError Config := do
  let root ← present root .missingRoot
  let code ← present locale .missingLocale
  let code ← localeOf code
  let files ← files.mapM fileOf
  if h : files = [] then .error .noFiles
  else .ok { routes := { root := root, locale := code }, files := files, options := options, files_ne_nil := h }

def pairs (c : Config) : List FilePair := c.files.map c.routes.pair

end Config
end StringResources
