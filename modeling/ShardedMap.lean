import ShardedMap.Policy.Scripted
import ShardedMap.Workload.SlotsSteps
import ShardedMap.Workload.Threads
import ShardedMap.Proofs.Chain.Drain
import ShardedMap.Proofs.Map.Independence
import ShardedMap.Proofs.Map.Occupancy
import ShardedMap.Proofs.Map.OwnKeys
import ShardedMap.Proofs.Map.Spread
import ShardedMap.Proofs.Map.Unfailing
import ShardedMap.Proofs.Policy.Tally
import ShardedMap.Proofs.Program.Consultation
import ShardedMap.Proofs.Program.Decision
import ShardedMap.Proofs.Program.Excess
import ShardedMap.Proofs.Program.Insertion
import ShardedMap.Proofs.Program.Unwinding
import ShardedMap.Proofs.Slots.Redistribution
import ShardedMap.Proofs.Slots.Sequence
