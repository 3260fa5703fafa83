/-!
# Exceptions

The exceptions that more than one component throws.
-/

namespace NodeToolkit

structure DeveloperException where
  code : String
  message : String
deriving DecidableEq

/-- `new DeveloperException(suffix, message)`. -/
def DeveloperException.make (suffix message : String) : DeveloperException :=
  ⟨"DEVELOPER_ERROR." ++ suffix, message⟩

structure AuthorizationException where
  code : String
  message : String
deriving DecidableEq

/-- `new AuthorizationException(message)`. -/
def AuthorizationException.make (message : String) : AuthorizationException :=
  ⟨"AUTH.NOT_AUTHORIZED", message⟩

end NodeToolkit
