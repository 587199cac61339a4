/-!
The variables of an environment and the home directories of its accounts.
-/
namespace SourceSpecs

structure Environment where
  values : List (String × String) := []
  accounts : List (String × String) := []

namespace Environment

def value? (e : Environment) (name : String) : Option String := e.values.lookup name

def unset (e : Environment) (name : String) : Environment :=
  { e with values := e.values.filter (·.1 != name) }

def set (e : Environment) (name value : String) : Environment :=
  { e with values := (name, value) :: (e.unset name).values }

/-- The home directory of an account. Without a name it is the one that `HOME` tells, or else that of
    the account in use. -/
def home? (e : Environment) (account : String) : Option String :=
  if account = "" then e.value? "HOME" <|> e.accounts.head?.map (·.2)
  else e.accounts.lookup account

end Environment

end SourceSpecs
