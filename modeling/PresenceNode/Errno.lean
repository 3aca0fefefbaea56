/-!
# Error numbers

The negative values of `errno.h` that the firmware itself returns.
-/

namespace PresenceNode

def enoent : Int := -2

def eio : Int := -5

def enodev : Int := -19

end PresenceNode
