import StringResources.Layout.FileName
import StringResources.Layout.LocaleCode
import StringResources.Path

/-! Where resource files are: the base files in `res/values` under the root, those of a locale beside
    them in a directory named for its code. -/

namespace StringResources

/-- A base file and the file of a locale that goes with it. -/
structure FilePair where
  base : Text
  locale : Text
  deriving DecidableEq, Repr

/-- The root of an application's resources and the locale to be kept up. -/
structure Routes where
  root : Text
  locale : LocaleCode
  deriving DecidableEq

namespace Routes

def resDir (r : Routes) : Text := Path.join r.root "res".toList

def baseDir (r : Routes) : Text := Path.join r.resDir "values".toList

def localeDir (r : Routes) : Text := Path.join r.resDir r.locale.valuesDir

def pair (r : Routes) (file : FileName) : FilePair where
  base := Path.join r.baseDir file.text
  locale := Path.join r.localeDir file.text

end Routes
end StringResources
