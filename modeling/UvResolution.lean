import UvResolution.MarkerTree
import UvResolution.Display
import UvResolution.Queries
import UvResolution.Reordering
import UvResolution.Unnamed
