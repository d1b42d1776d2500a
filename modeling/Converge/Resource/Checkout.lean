import Converge.Command
import Converge.Reference

/-!
# Checkouts

A checkout is a directory that holds a git repository at a revision.  Only a full commit hash
can be confirmed without asking the remote repository, so a checkout of a branch or a tag is
never taken as it is.
-/

namespace Converge

structure Checkout where
  url : String
  rev : String
  dir : Pathname
deriving DecidableEq, Repr

namespace Checkout

/-- A full commit hash: 40 hexadecimal digits. -/
def isCommitHash (rev : String) : Bool :=
  rev.toList.length = 40 && rev.toList.all Reference.isHexadecimal

/-- What is there once the repository has been cloned. -/
def marker (c : Checkout) : Pathname := c.dir.join ⟨".git"⟩

/-- A git command inside the checkout. -/
def git (c : Checkout) (args : List String) : Command :=
  ⟨"git", "-C" :: c.dir.text :: args, none⟩

def revParse (c : Checkout) : Command := c.git ["rev-parse", "HEAD"]

def clone (c : Checkout) : Command := ⟨"git", ["clone", c.url, c.dir.text], none⟩

/-- How the revision is fetched.  A commit is addressable once everything has been fetched; a
branch or a tag is fetched by its name. -/
def fetch (c : Checkout) : Command :=
  c.git (["fetch", "--tags", "origin"] ++ if isCommitHash c.rev then [] else [c.rev])

/-- Is anything to be fetched?  A new clone already has every commit. -/
def needsFetch (c : Checkout) (fresh : Bool) : Bool := !(isCommitHash c.rev && fresh)

/-- What is checked out: the commit itself, or what was fetched last, never a local branch. -/
def target (c : Checkout) : String := if isCommitHash c.rev then c.rev else "FETCH_HEAD"

def switch (c : Checkout) : Command := c.git ["checkout", "--detach", c.target]

def cloning (c : Checkout) : String := "cloning " ++ c.url
def fetching (c : Checkout) : String := "fetching " ++ c.rev ++ " from " ++ c.url
def switching (c : Checkout) : String := "checking out " ++ c.rev ++ " in " ++ c.dir.text

def isCloned (c : Checkout) : Command.Procedure Bool :=
  .query (Command.Request.pathExists c.marker)

/-- Does the directory hold the revision? -/
def satisfied (c : Checkout) : Command.Procedure (Except Failure Bool) :=
  if isCommitHash c.rev then
    c.isCloned.bind fun cloned =>
      if cloned then
        c.revParse.run.bind fun r =>
          .done (r.map fun o => o.success && Text.trim o.stdout = c.rev)
      else .done (.ok false)
  else .done (.ok false)

/-- Clones the repository if need be, fetches the revision if need be, and checks it out. -/
def apply (c : Checkout) : Command.Procedure (Except Failure Unit) :=
  c.isCloned.bind fun cloned =>
    (if cloned then .done (.ok ()) else c.clone.perform c.cloning).andThen fun () =>
      (if c.needsFetch (!cloned) then c.fetch.perform c.fetching else .done (.ok ())).andThen
        fun () => c.switch.perform c.switching

def validate (c : Checkout) : Except Failure Unit :=
  if Text.isBlankText c.url then .error (.of "git url is empty")
  else if c.rev.isEmpty || c.rev.toList.any Text.isBlank then
    .error (.of ("git revision '" ++ c.rev ++ "' is not a valid revision"))
  else .ok ()

end Checkout

end Converge
