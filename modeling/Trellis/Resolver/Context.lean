import Trellis.Entries
import Trellis.Host.Value

/-!
Contexts: values given to one execution for the resolvers that ask for them. A context holds at most
one value of each host type.
-/

namespace Trellis

/-- Values by their host type. -/
abbrev Context := List (HostType × HostValue)

namespace Context

/-- Adds a value, in the place of an earlier one of its type. -/
def add (context : Context) (host : HostType) (value : HostValue) : Context :=
  Entries.put host value context

def get? (context : Context) (host : HostType) : Option HostValue := context.lookup host

def text (context : Context) : String := s!"Context \x7b entries: {context.length} \x7d"

theorem get?_add (context : Context) (host h : HostType) (value : HostValue) :
    get? (add context host value) h = if h = host then some value else get? context h :=
  Entries.lookup_put host h value context

end Context

end Trellis
