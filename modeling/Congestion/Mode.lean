/-!
# Modes and events

The mode a sender controls its rate in, and what a report can tell about it.
-/

set_option autoImplicit false
set_option relaxedAutoImplicit false

namespace Congestion

inductive Mode
  /-- Tracking the target queue delay. -/
  | steady
  /-- Sharing the bottleneck with traffic that builds queues. -/
  | competing
  /-- Sending above the estimate for a while, to find out whether there is more. -/
  | probing
  /-- Backed off, since the path stopped delivering what was sent. -/
  | throttled
deriving DecidableEq

inductive Event
  | nothing
  | resolveThrottle
  | detectThrottle
  | startCompete
  | stopCompete
  | startProbing
  | stopProbing
deriving DecidableEq

def Mode.text : Mode → String
  | .steady => "default"
  | .competing => "competing"
  | .probing => "probing"
  | .throttled => "throttled"

def Event.text : Event → String
  | .nothing => "nothing"
  | .resolveThrottle => "resolve_throttle"
  | .detectThrottle => "detect_throttle"
  | .startCompete => "start_compete"
  | .stopCompete => "stop_compete"
  | .startProbing => "start_probing"
  | .stopProbing => "stop_probing"

end Congestion
