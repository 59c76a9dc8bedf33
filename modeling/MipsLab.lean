import MipsLab.Control.Controller
import MipsLab.Machine.Terminal
import MipsLab.Main
import MipsLab.Proofs.Assembly.DataImage
import MipsLab.Proofs.Assembly.EffectiveAddress
import MipsLab.Proofs.Assembly.Overflow
import MipsLab.Proofs.Assembly.Recognition
import MipsLab.Proofs.Assembly.Strings
import MipsLab.Proofs.Assembly.Targets
import MipsLab.Proofs.Control.Arrivals
import MipsLab.Proofs.Control.Delivery
import MipsLab.Proofs.Control.Registry
import MipsLab.Proofs.Control.Timing
import MipsLab.Proofs.Debug.Grammar
import MipsLab.Proofs.Debug.Keys
import MipsLab.Proofs.Machine.Counter
import MipsLab.Proofs.Machine.MultiplyDivide
import MipsLab.Proofs.Machine.Pairs
import MipsLab.Proofs.Machine.Screen
import MipsLab.Proofs.Run.Arguments
import MipsLab.Proofs.Run.Breakpoints
import MipsLab.Proofs.Run.Dump
import MipsLab.Proofs.Run.Entry
import MipsLab.Proofs.Run.Filler
import MipsLab.Proofs.Run.Limit
import MipsLab.Proofs.Run.Reports
import MipsLab.Proofs.Run.Straight
import MipsLab.Proofs.Source.Classification
import MipsLab.Proofs.Source.Names
import MipsLab.Proofs.Source.Opcodes
import MipsLab.Proofs.Source.Tagged
